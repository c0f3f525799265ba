import ModulePins.Proofs.Text.Ascii
import ModulePins.Proofs.Text.Ends
import ModulePins.SemVer.Constraint

/-!
# Plain tags

A plain tag is the canonical text of a release, with or without a mark. As a version it reads as the
release, and as a constraint it admits nothing else.
-/

namespace ModulePins

open SemVer Text

/-- A tag that is the text of a release. -/
def IsPlainTag (tag : String) : Prop :=
  ∃ major minor patch, tag = (SemVer.release major minor patch).text ∨
    tag = "v" ++ (SemVer.release major minor patch).text

abbrev decimals (n : Nat) : List Char :=
  Nat.toDigits 10 n

def tripleChars (major minor patch : Nat) : List Char :=
  decimals major ++ '.' :: (decimals minor ++ '.' :: decimals patch)

theorem text_release (major minor patch : Nat) :
    (SemVer.release major minor patch).text.toList = tripleChars major minor patch := by
  simp [SemVer.text, SemVer.release, tripleChars, Nat.toString_eq_repr, Nat.toList_repr]

/-! ### Digits -/

theorem isDecimal_of_isDigit {c : Char} (h : c.isDigit = true) : isDecimal c = true := by
  have hrange := isDigit_range h
  have hsmall : c.toNat < 0x80 := by omega
  simp [isDecimal, digitValue?, h, hsmall]

theorem digitValue?_digitChar {d : Nat} (h : d < 10) : digitValue? (Nat.digitChar d) = some d := by
  revert d
  decide

theorem isDigit_decimals (n : Nat) : ∀ c ∈ decimals n, c.isDigit = true :=
  fun _ hc => Nat.isDigit_of_mem_toDigits (by decide) (by decide) hc

theorem digitsValue_append (cs : List Char) (c : Char) :
    digitsValue (cs ++ [c]) = 10 * digitsValue cs + (digitValue? c).getD 0 := by
  simp [digitsValue]

theorem digitsValue_decimals (n : Nat) : digitsValue (decimals n) = n := by
  induction n using Nat.strongRecOn with
  | ind n ih =>
    by_cases hn : n < 10
    · rw [decimals, Nat.toDigits_of_lt_base hn]
      simp [digitsValue, digitValue?_digitChar hn]
    · have hlast : n % 10 < 10 := Nat.mod_lt _ (by decide)
      rw [decimals, Nat.toDigits_of_base_le (by decide) (by omega), digitsValue_append,
        digitValue?_digitChar hlast, ih (n / 10) (by omega), Option.getD_some]
      omega

theorem decimals_eq_cons {n : Nat} (hn : n ≠ 0) : ∃ c cs, decimals n = c :: cs ∧ c ≠ '0' := by
  induction n using Nat.strongRecOn with
  | ind n ih =>
    by_cases hsmall : n < 10
    · rw [decimals, Nat.toDigits_of_lt_base hsmall]
      exact ⟨_, [], rfl, by simpa using hn⟩
    · obtain ⟨c, cs, hcs, hc⟩ := ih (n / 10) (by omega) (by omega)
      rw [decimals] at hcs
      rw [decimals, Nat.toDigits_of_base_le (by decide) (by omega), hcs]
      exact ⟨c, _, rfl, hc⟩

/-- A number that is not too long to be read. -/
def IsShort (n : Nat) : Prop :=
  (decimals n).length ≤ maxDigits

instance (n : Nat) : Decidable (IsShort n) :=
  inferInstanceAs (Decidable (_ ≤ _))

theorem number?_decimals (n : Nat) :
    number? (decimals n) = if IsShort n then some n else none := by
  rw [number?, digitsValue_decimals]
  rfl

theorem component?_decimals (n : Nat) :
    component? (decimals n) = if IsShort n then some n else none := by
  by_cases hn : n = 0
  · subst hn
    decide
  · obtain ⟨c, cs, hcs, hc⟩ := decimals_eq_cons hn
    have hdrop : (decimals n).dropWhile (· == '0') = decimals n := by
      rw [hcs, List.dropWhile_cons_of_neg (by simpa using hc)]
    rw [component?, hdrop, number?_decimals]

/-! ### Text without blanks and marks -/

/-- Digits and dots, of which a plain tag is made. -/
def IsTripleChar (c : Char) : Prop :=
  c.isDigit = true ∨ c = '.'

theorem isTripleChar_triple (major minor patch : Nat) :
    ∀ c ∈ tripleChars major minor patch, IsTripleChar c := by
  intro c hc
  simp only [tripleChars, List.mem_append, List.mem_cons] at hc
  rcases hc with hc | rfl | hc | rfl | hc
  · exact .inl (isDigit_decimals _ c hc)
  · exact .inr rfl
  · exact .inl (isDigit_decimals _ c hc)
  · exact .inr rfl
  · exact .inl (isDigit_decimals _ c hc)

theorem toNat_of_isTripleChar {c : Char} (h : IsTripleChar c) :
    0x2E ≤ c.toNat ∧ c.toNat ≤ 0x39 := by
  rcases h with h | rfl
  · have hrange := isDigit_range h
    omega
  · decide

theorem isBlank_of_isTripleChar {c : Char} (h : IsTripleChar c) : isBlank c = false := by
  have hrange := toNat_of_isTripleChar h
  simp [isBlank, blankRanges]
  omega

theorem isV_of_isTripleChar {c : Char} (h : IsTripleChar c) : isV c = false := by
  have hrange := toNat_of_isTripleChar h
  simp only [isV, Bool.or_eq_false_iff, beq_eq_false_iff_ne]
  constructor
  · rintro rfl
    simp at hrange
  · rintro rfl
    simp at hrange

theorem wordsFrom_of_not_blank {cs : List Char} (h : ∀ c ∈ cs, isBlank c = false)
    (word : List Char) (hne : word.reverse ++ cs ≠ []) :
    wordsFrom word cs = [word.reverse ++ cs] := by
  induction cs generalizing word with
  | nil =>
    have hword : word ≠ [] := by simpa using hne
    simp [wordsFrom, hword]
  | cons c cs ih =>
    rw [wordsFrom, if_neg (by simp [h c (by simp)]),
      ih (fun d hd => h d (List.mem_cons_of_mem _ hd)) (c :: word) (by simp)]
    simp

theorem startsMark_of_not_isV {c : Char} (h : isV c = false) (before : Option Char)
    (rest : List Char) : startsMark before (c :: rest) = false := by
  cases rest <;> simp [startsMark, h]

theorem dropMarks_of_not_isV {cs : List Char} (h : ∀ c ∈ cs, isV c = false)
    (before : Option Char) : dropMarks before cs = cs := by
  induction cs generalizing before with
  | nil => rfl
  | cons c cs ih =>
    rw [dropMarks, startsMark_of_not_isV (h c (by simp)), if_neg (by simp),
      ih (fun d hd => h d (List.mem_cons_of_mem _ hd))]

theorem dropFirstMark_of_not_isV {cs : List Char} (h : ∀ c ∈ cs, isV c = false)
    (before : Option Char) : dropFirstMark before cs = cs := by
  induction cs generalizing before with
  | nil => rfl
  | cons c cs ih =>
    rw [dropFirstMark, startsMark_of_not_isV (h c (by simp)), if_neg (by simp),
      ih (fun d hd => h d (List.mem_cons_of_mem _ hd))]

theorem dropGaps_of_not_blank {cs : List Char} (h : ∀ c ∈ cs, isBlank c = false)
    (before : Option Char) : Range.dropGaps before cs = cs := by
  induction cs generalizing before with
  | nil => rfl
  | cons c cs ih =>
    rw [Range.dropGaps, h c (by simp), Bool.false_and, Bool.false_and, if_neg (by simp),
      ih (fun d hd => h d (List.mem_cons_of_mem _ hd))]

theorem splitAt_of_not_mem {sep : Char} {cs : List Char} (h : sep ∉ cs) :
    SemVer.splitAt sep cs = [cs] := by
  induction cs with
  | nil => rfl
  | cons c cs ih =>
    rw [List.mem_cons, not_or] at h
    have hc : (c == sep) = false := beq_eq_false_iff_ne.mpr (Ne.symm h.1)
    simp only [SemVer.splitAt, hc, ih h.2, Bool.false_eq_true, if_false]

theorem splitBars_of_not_mem {cs : List Char} (h : '|' ∉ cs) : Range.splitBars cs = [cs] := by
  induction cs with
  | nil => rfl
  | cons c cs ih =>
    rw [List.mem_cons, not_or] at h
    rw [Range.splitBars, ih h.2]
    intro _ hc
    exact absurd hc.symm h.1

theorem splitDash_of_not_mem {cs : List Char} (h : ' ' ∉ cs) : Group.splitDash cs = [cs] := by
  induction cs with
  | nil => rfl
  | cons c cs ih =>
    rw [List.mem_cons, not_or] at h
    rw [Group.splitDash, ih h.2]
    intro _ hc
    exact absurd hc.symm h.1

/-! ### Plain tags as versions -/

theorem span_decimals {p : Char → Bool} (hp : ∀ c, c.isDigit = true → p c = true) (n : Nat)
    {rest : List Char} (hrest : rest.takeWhile p = []) :
    (decimals n ++ rest).takeWhile p = decimals n ∧ (decimals n ++ rest).dropWhile p = rest :=
  span_append (fun c hc => hp c (isDigit_decimals n c hc)) hrest

theorem nextComponent_decimals (n : Nat) {rest : List Char}
    (hrest : rest.takeWhile isDecimal = []) :
    nextComponent ('.' :: (decimals n ++ rest)) = (decimals n, rest) := by
  obtain ⟨htake, hdrop⟩ := span_decimals (fun c => isDecimal_of_isDigit) n hrest
  simp [nextComponent, htake, hdrop]

theorem readBare?_triple (major minor patch : Nat) :
    readBare? (tripleChars major minor patch) =
      if IsShort major ∧ IsShort minor ∧ IsShort patch then some (.release major minor patch)
      else none := by
  have hdot : ∀ rest : List Char, ('.' :: rest).takeWhile isDecimal = [] := fun _ => rfl
  obtain ⟨htake, hdrop⟩ := span_decimals (fun c => isDecimal_of_isDigit) major
    (hdot (decimals minor ++ '.' :: decimals patch))
  have hminor := nextComponent_decimals minor (hdot (decimals patch))
  have hpatch : nextComponent ('.' :: (decimals patch ++ [])) = (decimals patch, []) :=
    nextComponent_decimals patch rfl
  rw [List.append_nil] at hpatch
  rw [readBare?, tripleChars, htake, hdrop]
  by_cases hmajor : IsShort major <;> by_cases hsecond : IsShort minor <;>
    by_cases hthird : IsShort patch <;>
    simp [hminor, hpatch, component?_decimals, hmajor, hsecond, hthird, splitSuffix, splitPlus,
      prerelease?, build?, SemVer.release]

theorem chars_of_plain {tag : String} (h : IsPlainTag tag) :
    ∃ major minor patch,
      tag.toList = tripleChars major minor patch ∨ tag.toList = 'v' :: tripleChars major minor patch := by
  obtain ⟨major, minor, patch, rfl | rfl⟩ := h
  · exact ⟨major, minor, patch, .inl (text_release ..)⟩
  · refine ⟨major, minor, patch, .inr ?_⟩
    rw [String.toList_append, text_release]
    rfl

theorem tripleChars_eq_cons (major minor patch : Nat) :
    ∃ c cs, tripleChars major minor patch = c :: cs ∧ c.isDigit = true := by
  cases hmajor : decimals major with
  | nil => exact absurd hmajor Nat.toDigits_ne_nil
  | cons c cs =>
    refine ⟨c, cs ++ '.' :: (decimals minor ++ '.' :: decimals patch), ?_, ?_⟩
    · rw [tripleChars, hmajor, List.cons_append]
    · exact isDigit_decimals major c (by simp [hmajor])

theorem readChars?_plain {cs : List Char} {major minor patch : Nat}
    (h : cs = tripleChars major minor patch ∨ cs = 'v' :: tripleChars major minor patch) :
    readChars? cs = readBare? (tripleChars major minor patch) := by
  have hchars := isTripleChar_triple major minor patch
  have hblank : ∀ c ∈ tripleChars major minor patch, isBlank c = false :=
    fun c hc => isBlank_of_isTripleChar (hchars c hc)
  have hmark : ∀ c ∈ tripleChars major minor patch, isV c = false :=
    fun c hc => isV_of_isTripleChar (hchars c hc)
  rcases h with rfl | rfl
  · rw [readChars?, trim_of_not_blank hblank, dropFirstMark_of_not_isV hmark]
  · have hall : ∀ c ∈ 'v' :: tripleChars major minor patch, isBlank c = false := by
      intro c hc
      rcases List.mem_cons.mp hc with rfl | hc
      · decide
      · exact hblank c hc
    obtain ⟨d, ds, htriple, hd⟩ := tripleChars_eq_cons major minor patch
    rw [readChars?, trim_of_not_blank hall, htriple]
    simp [dropFirstMark, startsMark, isV, isDecimal_of_isDigit hd]

theorem read?_plain {tag : String} {major minor patch : Nat}
    (h : tag.toList = tripleChars major minor patch ∨
      tag.toList = 'v' :: tripleChars major minor patch) :
    SemVer.read? tag =
      if IsShort major ∧ IsShort minor ∧ IsShort patch then some (.release major minor patch)
      else none := by
  rw [SemVer.read?, readChars?_plain h, readBare?_triple]

/-! ### Plain tags as constraints -/

theorem normalize_plain {cs : List Char} {major minor patch : Nat}
    (h : cs = tripleChars major minor patch ∨ cs = 'v' :: tripleChars major minor patch) :
    Range.normalize cs = tripleChars major minor patch := by
  have hchars := isTripleChar_triple major minor patch
  have hblank : ∀ c ∈ cs, isBlank c = false := by
    intro c hc
    rcases h with rfl | rfl
    · exact isBlank_of_isTripleChar (hchars c hc)
    · rcases List.mem_cons.mp hc with rfl | hc
      · decide
      · exact isBlank_of_isTripleChar (hchars c hc)
  have hcomma : (cs.map fun c => if c == ',' then ' ' else c) = cs := by
    rw [List.map_congr_left (g := id), List.map_id]
    intro c hc
    have hne : c ≠ ',' := by
      rintro rfl
      rcases h with rfl | rfl
      · exact absurd (toNat_of_isTripleChar (hchars _ hc)) (by decide)
      · rcases List.mem_cons.mp hc with hv | hc
        · cases hv
        · exact absurd (toNat_of_isTripleChar (hchars _ hc)) (by decide)
    simp [hne]
  have hmarks : dropMarks none cs = tripleChars major minor patch := by
    have hmark : ∀ c ∈ tripleChars major minor patch, isV c = false :=
      fun c hc => isV_of_isTripleChar (hchars c hc)
    rcases h with rfl | rfl
    · exact dropMarks_of_not_isV hmark none
    · obtain ⟨d, ds, htriple, hd⟩ := tripleChars_eq_cons major minor patch
      have hstarts : startsMark none ('v' :: tripleChars major minor patch) = true := by
        simp [htriple, startsMark, isV, isDecimal_of_isDigit hd]
      rw [dropMarks, if_pos hstarts]
      exact dropMarks_of_not_isV hmark _
  have hne : tripleChars major minor patch ≠ [] := by
    obtain ⟨d, ds, htriple, _⟩ := tripleChars_eq_cons major minor patch
    simp [htriple]
  have hword := wordsFrom_of_not_blank (fun c hc => isBlank_of_isTripleChar (hchars c hc)) []
    (by simpa using hne)
  rw [Range.normalize, hcomma, dropGaps_of_not_blank hblank, hmarks, words, hword]
  simp [List.intercalate]

theorem splitPart?_decimals (n : Nat) {rest : List Char}
    (hrest : rest.takeWhile Char.isDigit = []) :
    Comparator.splitPart? (decimals n ++ rest) = some (.digits (decimals n), rest) := by
  by_cases hn : n = 0
  · subst hn
    rfl
  · obtain ⟨c, cs, hcs, hc⟩ := decimals_eq_cons hn
    have hdigit : c.isDigit = true := isDigit_decimals n c (by simp [hcs])
    have hrange := isDigit_range hdigit
    have hwild : (c == 'x' || c == 'X' || c == '*') = false := by
      simp only [Bool.or_eq_false_iff, beq_eq_false_iff_ne]
      refine ⟨⟨?_, ?_⟩, ?_⟩
      · rintro rfl
        exact absurd hrange (by decide)
      · rintro rfl
        exact absurd hrange (by decide)
      · rintro rfl
        exact absurd hrange (by decide)
    have hzero : (c == '0') = false := beq_eq_false_iff_ne.mpr hc
    obtain ⟨htake, hdrop⟩ := span_decimals (fun _ h => h) n hrest
    rw [hcs, List.cons_append] at htake hdrop ⊢
    rw [Comparator.splitPart?, hwild, hzero, hdigit, htake, hdrop]
    rfl

theorem splitOperator_of_isDigit {c : Char} (h : c.isDigit = true) (rest : List Char) :
    Comparator.splitOperator (c :: rest) = (.eq, c :: rest) := by
  have hrange := isDigit_range h
  unfold Comparator.splitOperator
  split
  all_goals first
    | rfl
    | (rename_i heq
       cases heq
       exact absurd hrange (by decide))

theorem written?_triple (major minor patch : Nat) :
    Comparator.written? (tripleChars major minor patch) =
      some {
        operator := .eq
        major := .digits (decimals major)
        minor := some (.digits (decimals minor))
        patch := some (.digits (decimals patch))
        prerelease := []
        build := [] } := by
  have hdot : ∀ rest : List Char, ('.' :: rest).takeWhile Char.isDigit = [] := fun _ => rfl
  obtain ⟨c, cs, htriple, hc⟩ := tripleChars_eq_cons major minor patch
  have hmajor := splitPart?_decimals major (hdot (decimals minor ++ '.' :: decimals patch))
  have hminor := splitPart?_decimals minor (hdot (decimals patch))
  have hpatch : Comparator.splitPart? (decimals patch ++ []) =
      some (.digits (decimals patch), []) := splitPart?_decimals patch rfl
  rw [List.append_nil] at hpatch
  have hv : (tripleChars major minor patch).head? ≠ some 'v' := by
    rw [htriple, List.head?_cons, ne_eq, Option.some.injEq]
    rintro rfl
    cases hc
  have hoperator : Comparator.splitOperator (tripleChars major minor patch) =
      (.eq, tripleChars major minor patch) := by
    rw [htriple]
    exact splitOperator_of_isDigit hc cs
  have hhead : ((tripleChars major minor patch).head? == some 'v') = false := by simpa using hv
  rw [Comparator.written?, hhead]
  simp only [Bool.false_eq_true, if_false, hoperator]
  rw [tripleChars, hmajor]
  simp [Comparator.splitNext?, hminor, hpatch, Comparator.splitLabel]

/-- The constraint that a plain tag of a release stands for. -/
def exactly (tag : String) (v : SemVer) : Constraint :=
  { text := tag, range := ⟨[⟨[⟨.eq, .full v⟩]⟩]⟩ }

theorem readComparator_triple {major minor patch : Nat} (hmajor : IsShort major)
    (hminor : IsShort minor) (hpatch : IsShort patch) :
    Group.readComparator (tripleChars major minor patch) =
      .ok ⟨.eq, .full (.release major minor patch)⟩ := by
  rw [Group.readComparator, written?_triple]
  simp [Comparator.ofWritten?, Comparator.partValue?, number?_decimals, hmajor, hminor, hpatch,
    prerelease?, build?, SemVer.release]

theorem readGroup_triple {major minor patch : Nat} (hmajor : IsShort major)
    (hminor : IsShort minor) (hpatch : IsShort patch) :
    Group.read (tripleChars major minor patch) =
      .ok ⟨[⟨.eq, .full (.release major minor patch)⟩]⟩ := by
  have hspace : ' ' ∉ tripleChars major minor patch := by
    intro hc
    exact absurd (toNat_of_isTripleChar (isTripleChar_triple _ _ _ _ hc)) (by decide)
  have hempty : (tripleChars major minor patch).isEmpty = false := by
    obtain ⟨c, cs, htriple, _⟩ := tripleChars_eq_cons major minor patch
    simp [htriple]
  rw [Group.read, hempty, if_neg (by simp), splitDash_of_not_mem hspace]
  simp [splitAt_of_not_mem hspace, readComparator_triple hmajor hminor hpatch, bind, Except.bind,
    pure, Except.pure]

/-- A plain tag that is read as a version is a constraint for just this version. -/
theorem read_plain {tag : String} {major minor patch : Nat}
    (h : tag.toList = tripleChars major minor patch ∨
      tag.toList = 'v' :: tripleChars major minor patch)
    (hmajor : IsShort major) (hminor : IsShort minor) (hpatch : IsShort patch) :
    Constraint.read tag = .ok (exactly tag (.release major minor patch)) := by
  have hchars := isTripleChar_triple major minor patch
  have hbar : '|' ∉ tripleChars major minor patch := by
    intro hc
    exact absurd (toNat_of_isTripleChar (hchars _ hc)) (by decide)
  have htrim : trim (tripleChars major minor patch) = tripleChars major minor patch :=
    trim_of_not_blank fun c hc => isBlank_of_isTripleChar (hchars c hc)
  have hblank : tag.toList.all isBlank = false := by
    obtain ⟨c, cs, htriple, hc⟩ := tripleChars_eq_cons major minor patch
    rcases h with h | h
    · simp [h, htriple, isBlank_of_isTripleChar (.inl hc)]
    · have hv : isBlank 'v' = false := by decide
      simp [h, hv]
  rw [Constraint.read, hblank, if_neg (by simp), Range.read, normalize_plain h,
    Range.readExpression, splitBars_of_not_mem hbar]
  simp [htrim, readGroup_triple hmajor hminor hpatch, bind, Except.bind, pure, Except.pure, exactly]

theorem admits_exactly (tag : String) (major minor patch major' minor' patch' : Nat) :
    (exactly tag (.release major minor patch)).admits (.release major' minor' patch') = true ↔
      SemVer.release major' minor' patch' = .release major minor patch := by
  simp [exactly, Constraint.admits, Range.admits, Group.admits, Group.admitsNearPrerelease,
    Group.admitsReleased, Group.clauses, Comparator.clauses, Clause.released, Clause.admits,
    Clause.holds, SemVer.isPrerelease, SemVer.release, SemVer.withoutBuild]

/-- A plain tag that is read as a version is read as a release and stands for exactly it. -/
theorem plain_cases {tag : String} {v : SemVer} (htag : IsPlainTag tag)
    (hread : SemVer.read? tag = some v) :
    (∃ major minor patch, v = .release major minor patch) ∧
      Constraint.read tag = .ok (exactly tag v) := by
  obtain ⟨major, minor, patch, hchars⟩ := chars_of_plain htag
  rw [read?_plain hchars] at hread
  split at hread
  · rename_i hshort
    cases hread
    exact ⟨⟨major, minor, patch, rfl⟩, read_plain hchars hshort.1 hshort.2.1 hshort.2.2⟩
  · cases hread

/-- One plain tag admits another only if both name one version. -/
theorem admitsText_exactly {tag pin : String} {v : SemVer} (htag : IsPlainTag tag)
    (hpin : IsPlainTag pin) (hread : SemVer.read? pin = some v) :
    (exactly pin v).admitsText tag = true ↔ SemVer.read? tag = some v := by
  obtain ⟨⟨major, minor, patch, rfl⟩, _⟩ := plain_cases hpin hread
  rw [Constraint.admitsText, Option.any_eq_true]
  constructor
  · rintro ⟨w, hw, hadmits⟩
    obtain ⟨⟨major', minor', patch', rfl⟩, _⟩ := plain_cases htag hw
    rw [hw, (admits_exactly ..).mp hadmits]
  · intro hsame
    exact ⟨_, hsame, (admits_exactly ..).mpr rfl⟩

end ModulePins
