import ModulePins.Proofs.SemVer.Plain

/-!
# Version marks

A mark is a letter `v` before a digit that no letter or digit glues to a word. Dropping marks never
makes new ones, and it is the only thing that takes letters `v` out of a text: whether a text has a
mark can be seen from their number.
-/

namespace ModulePins.SemVer

open Text

variable {before : Option Char} {cs ds : List Char} {c : Char}

theorem isDecimal_of_isV (h : isV c = true) : isDecimal c = false := by
  simp only [isV, Bool.or_eq_true, beq_iff_eq] at h
  rcases h with rfl | rfl <;> decide

theorem isWordChar_of_isV (h : isV c = true) : isWordChar c = true := by
  simp only [isV, Bool.or_eq_true, beq_iff_eq] at h
  rcases h with rfl | rfl <;> decide

theorem isV_of_isWordChar (h : isWordChar c = false) : isV c = false := by
  cases hv : isV c with
  | false => rfl
  | true => rw [isWordChar_of_isV hv] at h; cases h

theorem isV_of_isDecimal (h : isDecimal c = true) : isV c = false := by
  cases hv : isV c with
  | false => rfl
  | true => rw [isDecimal_of_isV hv] at h; cases h

/-! ### Blanks, letters and digits -/

/-- No script has digits among the blanks. -/
theorem isBlank_of_isDecimal (h : isDecimal c = true) : isBlank c = false := by
  have hapart : ∀ first ∈ digitZeros, ∀ range ∈ blankRanges,
      first + 10 ≤ range.1 ∨ range.2 < first := by decide
  obtain ⟨first, hfirst, hlow, hhigh⟩ : ∃ first ∈ digitZeros, first ≤ c.toNat ∧
      c.toNat < first + 10 := by
    unfold isDecimal digitValue? at h
    split at h
    · split at h
      · rename_i hdigit
        have hrange := isDigit_range hdigit
        exact ⟨0x30, by decide, hrange.1, by omega⟩
      · cases h
    · rw [Option.isSome_map, List.find?_isSome] at h
      simpa using h
  refine List.any_eq_false.mpr fun range hrange => ?_
  have hdisjoint := hapart first hfirst range hrange
  simp only [Bool.and_eq_true, decide_eq_true_eq]
  omega

/-- Of what stands before, only whether it glues matters. -/
theorem startsMark_congr {before' : Option Char}
    (h : before.any isWordChar = before'.any isWordChar) (cs : List Char) :
    startsMark before cs = startsMark before' cs := by
  unfold startsMark
  rw [h]

theorem dropMarks_congr {before' : Option Char}
    (h : before.any isWordChar = before'.any isWordChar) (cs : List Char) :
    dropMarks before cs = dropMarks before' cs := by
  cases cs with
  | nil => rfl
  | cons c cs => rw [dropMarks, dropMarks, startsMark_congr h]

theorem dropFirstMark_congr {before' : Option Char}
    (h : before.any isWordChar = before'.any isWordChar) (cs : List Char) :
    dropFirstMark before cs = dropFirstMark before' cs := by
  cases cs with
  | nil => rfl
  | cons c cs => rw [dropFirstMark, dropFirstMark, startsMark_congr h]

theorem dropMarks_some (h : isWordChar c = false) (cs : List Char) :
    dropMarks (some c) cs = dropMarks none cs :=
  dropMarks_congr (by simpa using h) cs

theorem dropFirstMark_some (h : isWordChar c = false) (cs : List Char) :
    dropFirstMark (some c) cs = dropFirstMark none cs :=
  dropFirstMark_congr (by simpa using h) cs

theorem startsMark_cons_iff :
    startsMark before (c :: cs) = true ↔
      isV c = true ∧ before.any isWordChar = false ∧ ∃ d ds, cs = d :: ds ∧ isDecimal d = true := by
  cases cs with
  | nil => simp [startsMark]
  | cons d ds => simp [startsMark, and_assoc, and_left_comm, and_comm]

theorem dropMarks_cons (before : Option Char) (c : Char) (cs : List Char) :
    dropMarks before (c :: cs) =
      if startsMark before (c :: cs) then dropMarks (some c) cs else c :: dropMarks (some c) cs :=
  rfl

theorem dropMarks_of_isDecimal (h : isDecimal c = true) (before : Option Char) (cs : List Char) :
    dropMarks before (c :: cs) = c :: dropMarks (some c) cs := by
  rw [dropMarks, startsMark_of_not_isV (isV_of_isDecimal h), if_neg (by simp)]

/-- A mark stands somewhere in the text that follows `before`. -/
def HasMark (before : Option Char) (cs : List Char) : Prop :=
  ∃ front rest, cs = front ++ rest ∧ startsMark (front.getLast?.or before) rest = true

theorem hasMark_cons_iff :
    HasMark before (c :: cs) ↔ startsMark before (c :: cs) = true ∨ HasMark (some c) cs := by
  constructor
  · rintro ⟨front, rest, hcs, hmark⟩
    cases front with
    | nil =>
      rw [List.nil_append] at hcs
      subst hcs
      exact .inl hmark
    | cons d front =>
      obtain ⟨rfl, rfl⟩ := List.cons.inj hcs
      refine .inr ⟨front, rest, rfl, ?_⟩
      rwa [List.getLast?_cons, Option.or_of_isSome (by simp),
        ← Option.or_some] at hmark
  · rintro (hmark | ⟨front, rest, rfl, hmark⟩)
    · exact ⟨[], c :: cs, rfl, hmark⟩
    · refine ⟨c :: front, rest, rfl, ?_⟩
      rwa [List.getLast?_cons, Option.or_of_isSome (by simp), ← Option.or_some]

theorem dropFirstMark_eq_self_iff (before : Option Char) (cs : List Char) :
    dropFirstMark before cs = cs ↔ ¬ HasMark before cs := by
  induction cs generalizing before with
  | nil =>
    refine iff_of_true rfl ?_
    rintro ⟨front, rest, hcs, hmark⟩
    rw [(List.append_eq_nil_iff.mp hcs.symm).2] at hmark
    cases hmark
  | cons c cs ih =>
    rw [dropFirstMark, hasMark_cons_iff]
    split
    · rename_i hmark
      refine iff_of_false (fun hsame => ?_) fun hnone => hnone (.inl hmark)
      exact absurd (congrArg List.length hsame) (by simp)
    · rename_i hmark
      rw [List.cons.injEq, ih (some c)]
      simp [hmark]

theorem dropMarks_sublist (before : Option Char) (cs : List Char) :
    (dropMarks before cs).Sublist cs := by
  induction cs generalizing before with
  | nil => exact List.Sublist.slnil
  | cons c cs ih =>
    rw [dropMarks]
    split
    · exact (ih (some c)).cons c
    · exact (ih (some c)).cons_cons c

theorem dropFirstMark_sublist (before : Option Char) (cs : List Char) :
    (dropFirstMark before cs).Sublist cs := by
  induction cs generalizing before with
  | nil => exact List.Sublist.slnil
  | cons c cs ih =>
    rw [dropFirstMark]
    split
    · exact List.sublist_cons_self c cs
    · exact (ih (some c)).cons_cons c

theorem dropMarks_eq_self_iff_not_hasMark : dropMarks before cs = cs ↔ ¬ HasMark before cs := by
  induction cs generalizing before with
  | nil =>
    refine iff_of_true rfl ?_
    rintro ⟨front, rest, hcs, hmark⟩
    rw [(List.append_eq_nil_iff.mp hcs.symm).2] at hmark
    cases hmark
  | cons c cs ih =>
    rw [dropMarks, hasMark_cons_iff]
    split
    · rename_i hmark
      refine iff_of_false (fun hsame => ?_) fun hnone => hnone (.inl hmark)
      have hshort := (dropMarks_sublist (some c) cs).length_le
      rw [hsame, List.length_cons] at hshort
      omega
    · rename_i hmark
      rw [List.cons.injEq, ih]
      simp [hmark]

theorem dropMarks_eq_nil_iff : dropMarks before cs = [] ↔ cs = [] := by
  constructor
  · intro h
    cases cs with
    | nil => rfl
    | cons c cs =>
      rw [dropMarks] at h
      split at h
      · rename_i hmark
        obtain ⟨_, _, d, ds, rfl, hd⟩ := startsMark_cons_iff.mp hmark
        rw [dropMarks_of_isDecimal hd] at h
        cases h
      · cases h
  · rintro rfl
    rfl

/-! ### Texts put together -/

theorem dropMarks_append_of_not_isV (h : ∀ c ∈ cs, isV c = false) (before : Option Char)
    (ds : List Char) : ∃ before', dropMarks before (cs ++ ds) = cs ++ dropMarks before' ds := by
  induction cs generalizing before with
  | nil => exact ⟨before, rfl⟩
  | cons c cs ih =>
    rw [List.forall_mem_cons] at h
    obtain ⟨before', hcs⟩ := ih h.2 (some c)
    refine ⟨before', ?_⟩
    rw [List.cons_append, dropMarks, startsMark_of_not_isV h.1, if_neg (by simp), hcs,
      List.cons_append]

theorem dropFirstMark_append_of_not_isV (h : ∀ c ∈ cs, isV c = false) (before : Option Char)
    (ds : List Char) :
    ∃ before', dropFirstMark before (cs ++ ds) = cs ++ dropFirstMark before' ds := by
  induction cs generalizing before with
  | nil => exact ⟨before, rfl⟩
  | cons c cs ih =>
    rw [List.forall_mem_cons] at h
    obtain ⟨before', hcs⟩ := ih h.2 (some c)
    refine ⟨before', ?_⟩
    rw [List.cons_append, dropFirstMark, startsMark_of_not_isV h.1, if_neg (by simp), hcs,
      List.cons_append]

theorem startsMark_append (hdecimal : isDecimal c = false) {d : Char} :
    startsMark before (d :: (cs ++ c :: ds)) = startsMark before (d :: cs) := by
  cases cs with
  | nil => simp [startsMark, hdecimal]
  | cons e cs => rfl

/-- Marks are dropped on both sides of a separator on their own. -/
theorem dropMarks_append_cons (hword : isWordChar c = false) (hdecimal : isDecimal c = false)
    (before : Option Char) (cs ds : List Char) :
    dropMarks before (cs ++ c :: ds) = dropMarks before cs ++ c :: dropMarks none ds := by
  induction cs generalizing before with
  | nil =>
    rw [List.nil_append, dropMarks_cons, startsMark_of_not_isV (isV_of_isWordChar hword),
      if_neg (by simp), dropMarks_some hword]
    rfl
  | cons d cs ih =>
    rw [List.cons_append, dropMarks, dropMarks, startsMark_append hdecimal, ih]
    split <;> rfl

/-- The first mark stands before a separator or, if there is none, behind it. -/
theorem dropFirstMark_append_cons (hword : isWordChar c = false) (hdecimal : isDecimal c = false)
    (before : Option Char) (cs ds : List Char) :
    dropFirstMark before (cs ++ c :: ds) = dropFirstMark before cs ++ c :: ds ∨
      dropFirstMark before (cs ++ c :: ds) = cs ++ c :: dropFirstMark none ds := by
  induction cs generalizing before with
  | nil =>
    right
    rw [List.nil_append, dropFirstMark, startsMark_of_not_isV (isV_of_isWordChar hword),
      if_neg (by simp), dropFirstMark_some hword]
    rfl
  | cons d cs ih =>
    rw [List.cons_append, dropFirstMark, dropFirstMark, startsMark_append hdecimal]
    split
    · exact .inl rfl
    · rcases ih (some d) with h | h
      · exact .inl (by rw [h, List.cons_append])
      · exact .inr (by rw [h, List.cons_append])

/-! ### Marks counted -/

theorem countP_dropFirstMark (before : Option Char) (cs : List Char) :
    dropFirstMark before cs = cs ∨
      (dropFirstMark before cs).countP isV + 1 = cs.countP isV := by
  induction cs generalizing before with
  | nil => exact .inl rfl
  | cons c cs ih =>
    rw [dropFirstMark]
    split
    · rename_i hmark
      right
      rw [List.countP_cons_of_pos (startsMark_cons_iff.mp hmark).1]
    · rcases ih (some c) with h | h
      · exact .inl (by rw [h])
      · right
        rw [List.countP_cons, List.countP_cons]
        omega

theorem countP_dropMarks (before : Option Char) (cs : List Char) :
    dropMarks before cs = cs ∨ (dropMarks before cs).countP isV < cs.countP isV := by
  induction cs generalizing before with
  | nil => exact .inl rfl
  | cons c cs ih =>
    rw [dropMarks]
    split
    · rename_i hmark
      right
      rw [List.countP_cons_of_pos (startsMark_cons_iff.mp hmark).1]
      rcases ih (some c) with h | h
      · rw [h]
        omega
      · omega
    · rcases ih (some c) with h | h
      · exact .inl (by rw [h])
      · right
        rw [List.countP_cons, List.countP_cons]
        omega

theorem not_hasMark_iff :
    ¬ HasMark before cs ↔ (dropFirstMark before cs).countP isV = cs.countP isV := by
  rw [← dropFirstMark_eq_self_iff]
  constructor
  · intro h
    rw [h]
  · intro h
    rcases countP_dropFirstMark before cs with hsame | hless
    · exact hsame
    · omega

theorem dropMarks_eq_self_iff :
    dropMarks before cs = cs ↔ (dropMarks before cs).countP isV = cs.countP isV := by
  constructor
  · intro h
    rw [h]
  · intro h
    rcases countP_dropMarks before cs with hsame | hless
    · exact hsame
    · omega

theorem dropMarks_dropFirstMark (before : Option Char) (cs : List Char) :
    dropMarks before (dropFirstMark before cs) = dropMarks before cs := by
  induction cs generalizing before with
  | nil => rfl
  | cons c cs ih =>
    rw [dropFirstMark]
    split
    · rename_i hmark
      obtain ⟨_, _, d, ds, rfl, hd⟩ := startsMark_cons_iff.mp hmark
      rw [dropMarks_cons before c, if_pos hmark, dropMarks_of_isDecimal hd,
        dropMarks_of_isDecimal hd]
    · rename_i hmark
      -- The letter at the head glues what follows, so the head of the rest stays where it is.
      have hstays : startsMark before (c :: dropFirstMark (some c) cs) = false := by
        refine Bool.eq_false_iff.mpr fun hnew => hmark ?_
        obtain ⟨hv, hbefore, d, ds, hcs, hd⟩ := startsMark_cons_iff.mp hnew
        refine startsMark_cons_iff.mpr ⟨hv, hbefore, ?_⟩
        cases cs with
        | nil => cases hcs
        | cons e es =>
          have hglued : startsMark (some c) (e :: es) = false := by
            refine Bool.eq_false_iff.mpr fun hstarts => ?_
            have := (startsMark_cons_iff.mp hstarts).2.1
            rw [Option.any_some, isWordChar_of_isV hv] at this
            cases this
          rw [dropFirstMark, hglued, if_neg (by simp)] at hcs
          obtain ⟨rfl, _⟩ := List.cons.inj hcs
          exact ⟨_, es, rfl, hd⟩
      rw [dropMarks, hstays, if_neg (by simp), dropMarks, if_neg hmark, ih]

end ModulePins.SemVer
