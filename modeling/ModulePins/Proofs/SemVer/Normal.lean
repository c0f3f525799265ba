import Mathlib.Data.List.TakeWhile
import ModulePins.Proofs.SemVer.Marks
import ModulePins.Proofs.SemVer.Written

/-!
# The plain form of an expression

Commas become spaces, then gaps behind operators and version marks go, and in the end runs of blanks
collapse to single spaces. No step looks past a blank or a bar, but for the gaps behind operators.
-/

namespace ModulePins

open SemVer Text Sequence

variable {cs ds : List Char} {c : Char}

/-! ### Words -/

namespace Text

abbrev isInk (c : Char) : Bool :=
  !isBlank c

theorem words_cons_blank (h : isBlank c = true) (cs : List Char) : words (c :: cs) = words cs := by
  rw [words, wordsFrom, if_pos h]
  rfl

theorem wordsFrom_eq {word : List Char} (hne : word ≠ []) (cs : List Char) :
    wordsFrom word cs = (word.reverse ++ cs.takeWhile isInk) :: words (cs.dropWhile isInk) := by
  induction cs generalizing word with
  | nil => simp [wordsFrom, hne, words]
  | cons c cs ih =>
    rw [wordsFrom]
    split
    · rename_i hc
      rw [if_neg (by simpa using hne), List.takeWhile_cons_of_neg (by simp [hc]),
        List.dropWhile_cons_of_neg (by simp [hc]), words_cons_blank hc, List.append_nil]
      rfl
    · rename_i hc
      rw [ih (List.cons_ne_nil _ _), List.takeWhile_cons_of_pos (by simpa using hc),
        List.dropWhile_cons_of_pos (by simpa using hc), List.reverse_cons, List.append_assoc]
      rfl

theorem words_cons_ink (h : isBlank c = false) (cs : List Char) :
    words (c :: cs) = (c :: cs.takeWhile isInk) :: words (cs.dropWhile isInk) := by
  rw [words, wordsFrom, if_neg (by simp [h]), wordsFrom_eq (List.cons_ne_nil _ _)]
  rfl

theorem words_append_blank (h : isBlank c = true) (cs ds : List Char) :
    words (cs ++ c :: ds) = words cs ++ words ds := by
  have hfrom : ∀ word, wordsFrom word (cs ++ c :: ds) = wordsFrom word cs ++ words ds := by
    induction cs with
    | nil =>
      intro word
      by_cases hne : word = []
      · rw [hne]
        exact words_cons_blank h ds
      · simp [wordsFrom_eq hne, h, hne, words, wordsFrom]
    | cons d cs ih =>
      intro word
      rw [List.cons_append, wordsFrom, wordsFrom, ih, ih]
      split
      · split <;> rfl
      · rfl
  exact hfrom []

theorem words_eq_nil_iff : words cs = [] ↔ ∀ c ∈ cs, isBlank c = true := by
  induction cs with
  | nil => exact iff_of_true rfl (by simp)
  | cons c cs ih =>
    by_cases hc : isBlank c = true
    · rw [words_cons_blank hc, ih, List.forall_mem_cons]
      exact ⟨fun h => ⟨hc, h⟩, fun h => h.2⟩
    · rw [words_cons_ink (by simpa using hc)]
      simp [hc]

theorem mem_words {word : List Char} (h : word ∈ words cs) :
    word ≠ [] ∧ ∀ c ∈ word, isBlank c = false ∧ c ∈ cs := by
  induction hlength : cs.length using Nat.strongRecOn generalizing cs with
  | ind n ih =>
    subst hlength
    cases cs with
    | nil => cases h
    | cons c cs =>
      have hgrow : ∀ {rest : List Char}, rest <:+ c :: cs → rest.length < (c :: cs).length →
          word ∈ words rest → word ≠ [] ∧ ∀ d ∈ word, isBlank d = false ∧ d ∈ c :: cs := by
        intro rest hsuffix hshort hmem
        obtain ⟨hne, hchars⟩ := ih _ hshort hmem rfl
        exact ⟨hne, fun d hd => ⟨(hchars d hd).1, hsuffix.subset (hchars d hd).2⟩⟩
      by_cases hc : isBlank c = true
      · rw [words_cons_blank hc] at h
        exact hgrow (List.suffix_cons c cs) (by simp) h
      · rw [words_cons_ink (by simpa using hc)] at h
        rcases List.mem_cons.mp h with rfl | h
        · refine ⟨List.cons_ne_nil _ _, List.forall_mem_cons.mpr
            ⟨⟨by simpa using hc, List.mem_cons_self⟩, fun d hd => ⟨?_, ?_⟩⟩⟩
          · simpa using List.all_eq_true.mp List.all_takeWhile d hd
          · exact List.mem_cons_of_mem _ ((List.takeWhile_prefix _).subset hd)
        · have hsuffix := List.dropWhile_suffix isInk (l := cs)
          refine hgrow (hsuffix.trans (List.suffix_cons c cs)) ?_ h
          exact Nat.lt_succ_of_le hsuffix.length_le

/-! ### Blanks collapsed -/

/-- The words of a text with single spaces between them. -/
def collapse (cs : List Char) : List Char :=
  [' '].intercalate (words cs)

theorem collapse_cons_blank (h : isBlank c = true) (cs : List Char) :
    collapse (c :: cs) = collapse cs := by
  rw [collapse, words_cons_blank h, collapse]

theorem collapse_cons_ink (h : isBlank c = false) (cs : List Char) :
    collapse (c :: cs) =
      if cs.head?.any isBlank && !(words cs).isEmpty then c :: ' ' :: collapse cs
      else c :: collapse cs := by
  have hcons : ∀ word rest : List Char, ∀ others : List (List Char),
      [' '].intercalate ((c :: word) :: others) = c :: [' '].intercalate (word :: others) := by
    intro word rest others
    cases others <;> simp [List.intercalate_cons_cons]
  rw [collapse, words_cons_ink h]
  cases cs with
  | nil => simp [collapse, words, wordsFrom]
  | cons d ds =>
    by_cases hd : isBlank d = true
    · rw [List.takeWhile_cons_of_neg (by simp [hd]), List.dropWhile_cons_of_neg (by simp [hd]),
        collapse, words_cons_blank hd]
      by_cases hwords : words ds = []
      · simp [hwords]
      · rw [List.intercalate_cons_of_ne_nil hwords]
        simp [hd, hwords]
    · have hink : isBlank d = false := by simpa using hd
      rw [List.takeWhile_cons_of_pos (by simp [hink]), List.dropWhile_cons_of_pos (by simp [hink]),
        collapse, words_cons_ink hink, hcons _ ds]
      simp [hink]

theorem collapse_of_ink (h : ∀ c ∈ cs, isBlank c = false) : collapse cs = cs := by
  by_cases hne : cs = []
  · subst hne
    rfl
  · rw [collapse, words, wordsFrom_of_not_blank h [] (by simpa using hne)]
    simp

theorem mem_collapse (h : c ∈ collapse cs) : c = ' ' ∨ c ∈ cs := by
  rcases mem_intercalate h with h | ⟨word, hword, hc⟩
  · exact .inl h
  · exact .inr ((mem_words hword).2 c hc).2

theorem exists_word_of_last (hc : isBlank c = false) (hds : ∀ d ∈ ds, isBlank d = true)
    (cs : List Char) : ∃ word ∈ words (cs ++ c :: ds), word.getLast? = some c := by
  have hfrom : ∀ begun, ∃ word ∈ wordsFrom begun (cs ++ c :: ds), word.getLast? = some c := by
    induction cs with
    | nil =>
      intro begun
      have hstop : ds.takeWhile isInk = [] := by
        cases ds with
        | nil => rfl
        | cons d ds => rw [List.takeWhile_cons_of_neg (by simp [hds d List.mem_cons_self])]
      rw [List.nil_append, wordsFrom, if_neg (by simp [hc]), wordsFrom_eq (List.cons_ne_nil _ _),
        hstop]
      exact ⟨_, List.mem_cons_self, by simp⟩
    | cons d cs ih =>
      intro begun
      rw [List.cons_append, wordsFrom]
      obtain ⟨word, hword, hlast⟩ := ih []
      split
      · split
        · exact ⟨word, hword, hlast⟩
        · exact ⟨word, List.mem_cons_of_mem _ hword, hlast⟩
      · exact ih (d :: begun)
  exact hfrom []

theorem collapse_append_cons (hc : isBlank c = false) (cs ds : List Char) :
    ∃ spaces : List Char, (∀ d ∈ spaces, d = ' ') ∧
      collapse (cs ++ c :: ds) = collapse cs ++ (spaces ++ collapse (c :: ds)) := by
  induction cs with
  | nil => exact ⟨[], by simp, rfl⟩
  | cons d cs ih =>
    obtain ⟨spaces, hspaces, hcs⟩ := ih
    by_cases hd : isBlank d = true
    · rw [List.cons_append, collapse_cons_blank hd, collapse_cons_blank hd]
      exact ⟨spaces, hspaces, hcs⟩
    · have hink : isBlank d = false := by simpa using hd
      have hwords : (words (cs ++ c :: ds)).isEmpty = false := by
        rw [List.isEmpty_eq_false_iff, Ne, words_eq_nil_iff]
        intro hall
        have := hall c (by simp)
        rw [hc] at this
        cases this
      rw [List.cons_append, collapse_cons_ink hink, collapse_cons_ink hink, hwords, hcs]
      by_cases hempty : cs = []
      · subst hempty
        exact ⟨spaces, hspaces, by simp [hc]⟩
      · rw [List.head?_append, Option.or_of_isSome (by simpa using hempty)]
        by_cases hgap : cs.head?.any isBlank = true
        · by_cases hblank : words cs = []
          · exact ⟨' ' :: spaces, by simpa using hspaces, by simp [hgap, hblank, collapse]⟩
          · exact ⟨spaces, hspaces, by simp [hgap, hblank]⟩
        · exact ⟨spaces, hspaces, by simp [hgap]⟩

theorem collapse_pair (hc : isBlank c = false) (cs ds : List Char) :
    ∃ before after : List Char, (∀ d ∈ before ++ after, d = ' ') ∧
      collapse (cs ++ c :: c :: ds) =
        collapse cs ++ (before ++ c :: c :: (after ++ collapse ds)) := by
  obtain ⟨before, hbefore, hcs⟩ := collapse_append_cons hc cs (c :: ds)
  obtain ⟨after, hafter, hds⟩ : ∃ after : List Char, (∀ d ∈ after, d = ' ') ∧
      collapse (c :: ds) = c :: (after ++ collapse ds) := by
    rw [collapse_cons_ink hc]
    split
    · exact ⟨[' '], by simp, rfl⟩
    · exact ⟨[], by simp, rfl⟩
  refine ⟨before, after, fun d hd => (List.mem_append.mp hd).elim (hbefore d) (hafter d), ?_⟩
  rw [hcs, collapse_cons_ink hc, List.head?_cons, Option.any_some, hc, Bool.false_and,
    if_neg (by simp), hds]

/-! ### Ends of texts -/

/-- What is left of a text without spare blanks neither begins nor ends with one. -/
theorem trim_collapse (cs : List Char) : trim (collapse cs) = collapse cs := by
  have hwords : ∀ word ∈ words cs, word ≠ [] ∧ ∀ c ∈ word, isBlank c = false :=
    fun word h => ⟨(mem_words h).1, fun c hc => ((mem_words h).2 c hc).1⟩
  obtain ⟨hhead, hlast⟩ := ends_intercalate ' ' hwords
  exact trim_of_ends hhead hlast

end Text

/-! ### Gaps behind operators -/

namespace Range

/-- The last character of a text that is no blank, with `before` in front of it. -/
def lastInk (before : Option Char) : List Char → Option Char
  | [] => before
  | c :: cs => lastInk (if isBlank c then before else some c) cs

theorem lastInk_of_blank (h : ∀ c ∈ cs, isBlank c = true) (before : Option Char) :
    lastInk before cs = before := by
  induction cs with
  | nil => rfl
  | cons c cs ih =>
    rw [lastInk, if_pos (h c List.mem_cons_self), ih fun d hd => h d (List.mem_cons_of_mem _ hd)]

/-- What stands before a text matters only if the text is blank. -/
theorem lastInk_congr (h : ¬ ∀ c ∈ cs, isBlank c = true) (before before' : Option Char) :
    lastInk before cs = lastInk before' cs := by
  induction cs generalizing before before' with
  | nil => exact absurd (by simp) h
  | cons c cs ih =>
    rw [lastInk, lastInk]
    by_cases hc : isBlank c = true
    · rw [if_pos hc, if_pos hc]
      exact ih (fun hall => h (List.forall_mem_cons.mpr ⟨hc, hall⟩)) before before'
    · rw [if_neg hc, if_neg hc]

theorem exists_of_lastInk (h : lastInk none cs = some c) :
    ∃ front blanks, cs = front ++ c :: blanks ∧ isBlank c = false ∧
      ∀ d ∈ blanks, isBlank d = true := by
  have hfrom : ∀ before, lastInk before cs = some c →
      (before = some c ∧ ∀ d ∈ cs, isBlank d = true) ∨
      ∃ front blanks, cs = front ++ c :: blanks ∧ isBlank c = false ∧
        ∀ d ∈ blanks, isBlank d = true := by
    clear h
    induction cs with
    | nil =>
      intro before h
      exact .inl ⟨h, by simp⟩
    | cons d cs ih =>
      intro before h
      rw [lastInk] at h
      rcases ih _ h with ⟨hbefore, hall⟩ | ⟨front, blanks, rfl, hc, hblanks⟩
      · split at hbefore
        · rename_i hd
          exact .inl ⟨hbefore, List.forall_mem_cons.mpr ⟨hd, hall⟩⟩
        · rename_i hd
          cases hbefore
          exact .inr ⟨[], cs, rfl, by simpa using hd, hall⟩
      · exact .inr ⟨d :: front, blanks, rfl, hc, hblanks⟩
  rcases hfrom none h with ⟨hnone, _⟩ | hfound
  · cases hnone
  · exact hfound

theorem endsOperator_of_blank (h : isBlank c = true) : endsOperator (some c) = false := by
  rw [endsOperator, Option.any_some]
  simp only [Bool.or_eq_false_iff, beq_eq_false_iff_ne]
  refine ⟨⟨⟨⟨?_, ?_⟩, ?_⟩, ?_⟩, ?_⟩ <;>
    · rintro rfl
      cases h

/-- Of what stands before, only whether it is an operator matters. -/
theorem dropGaps_congr {before before' : Option Char}
    (h : endsOperator before = endsOperator before') (cs : List Char) :
    dropGaps before cs = dropGaps before' cs := by
  induction cs with
  | nil => rfl
  | cons c cs ih => rw [dropGaps, dropGaps, h, ih]

theorem dropGaps_of_no_version {before : Option Char}
    (h : startsVersion (cs.dropWhile isBlank) = true → endsOperator before = false) :
    dropGaps before cs = dropGaps none cs := by
  by_cases hbefore : endsOperator before = true
  · have hstarts : startsVersion (cs.dropWhile isBlank) = false := by
      refine Bool.eq_false_iff.mpr fun hstarts => ?_
      rw [h hstarts] at hbefore
      cases hbefore
    cases cs with
    | nil => rfl
    | cons c cs =>
      have hkeep : (isBlank c && endsOperator before &&
          startsVersion (cs.dropWhile isBlank)) = false := by
        by_cases hc : isBlank c = true
        · rw [List.dropWhile_cons_of_pos hc] at hstarts
          rw [hstarts, Bool.and_false]
        · simp [hc]
      rw [dropGaps, hkeep, if_neg (by simp), dropGaps, if_neg (by simp [endsOperator])]
  · exact dropGaps_congr (by simpa [endsOperator] using hbefore) cs

theorem startsVersion_append (hds : ds.head?.any isDecimal = false) (c : Char) (cs : List Char) :
    startsVersion (c :: (cs ++ ds)) = startsVersion (c :: cs) := by
  cases cs with
  | nil => simp [startsVersion, hds]
  | cons d cs => rfl

/-- Gaps go on both sides of a seam on their own, unless an operator stands before it and a version
after it. -/
theorem dropGaps_append (before : Option Char) (cs ds : List Char)
    (hds : ds.head?.any isDecimal = false)
    (hseam : startsVersion (ds.dropWhile isBlank) = true →
      endsOperator (lastInk before cs) = false) :
    dropGaps before (cs ++ ds) = dropGaps before cs ++ dropGaps none ds := by
  induction cs generalizing before with
  | nil => exact dropGaps_of_no_version hseam
  | cons c cs ih =>
    -- What follows a gap is looked for on the other side only if nothing but blanks is left on this.
    have hsame : (isBlank c && endsOperator before &&
          startsVersion ((cs ++ ds).dropWhile isBlank)) =
        (isBlank c && endsOperator before && startsVersion (cs.dropWhile isBlank)) := by
      by_cases hall : ∀ d ∈ cs, isBlank d = true
      · rw [List.dropWhile_append_of_pos hall, List.dropWhile_eq_nil_iff.mpr hall]
        by_cases hgap : (isBlank c && endsOperator before) = true
        · have hstarts : startsVersion (ds.dropWhile isBlank) = false := by
            refine Bool.eq_false_iff.mpr fun hstarts => ?_
            have hlast := hseam hstarts
            rw [Bool.and_eq_true] at hgap
            rw [lastInk, if_pos hgap.1, lastInk_of_blank hall, hgap.2] at hlast
            cases hlast
          rw [hstarts]
          rfl
        · rw [Bool.eq_false_iff.mpr hgap, Bool.false_and, Bool.false_and]
      · obtain ⟨d, es, hcs⟩ := List.exists_cons_of_ne_nil (mt List.dropWhile_eq_nil_iff.mp hall)
        rw [List.dropWhile_append, hcs, if_neg (by simp), List.cons_append,
          startsVersion_append hds]
    -- A blank that stays ends the gap, so it may stand for the operator before it.
    have hlast : startsVersion (ds.dropWhile isBlank) = true →
        endsOperator (lastInk (some c) cs) = false := by
      intro hstarts
      have hcs := hseam hstarts
      rw [lastInk] at hcs
      by_cases hc : isBlank c = true
      · by_cases hall : ∀ d ∈ cs, isBlank d = true
        · rw [lastInk_of_blank hall]
          exact endsOperator_of_blank hc
        · rw [if_pos hc] at hcs
          rwa [lastInk_congr hall (some c) before]
      · rwa [if_neg hc] at hcs
    rw [List.cons_append, dropGaps, dropGaps, hsame]
    split
    · rename_i hgap
      refine ih before fun hstarts => ?_
      have hcs := hseam hstarts
      simp only [Bool.and_eq_true] at hgap
      rwa [lastInk, if_pos hgap.1.1] at hcs
    · rw [ih (some c) hlast, List.cons_append]

theorem dropGaps_sublist (before : Option Char) (cs : List Char) :
    (dropGaps before cs).Sublist cs := by
  induction cs generalizing before with
  | nil => exact List.Sublist.slnil
  | cons c cs ih =>
    rw [dropGaps]
    split
    · exact (ih before).cons c
    · exact (ih (some c)).cons_cons c

/-! ### Seams -/

/-- The characters that stand between parts of an expression: blanks and bars. -/
def IsSeam (c : Char) : Prop :=
  isBlank c = true ∨ c = '|'

theorem IsSeam.isWordChar (h : IsSeam c) : isWordChar c = false := by
  rcases h with h | rfl
  · refine Bool.eq_false_iff.mpr fun hword => ?_
    rw [isBlank_of_isAlphanum hword] at h
    cases h
  · decide

theorem IsSeam.isDecimal (h : IsSeam c) : isDecimal c = false := by
  rcases h with h | rfl
  · refine Bool.eq_false_iff.mpr fun hdecimal => ?_
    rw [isBlank_of_isDecimal hdecimal] at h
    cases h
  · decide

theorem IsSeam.endsOperator (h : IsSeam c) : endsOperator (some c) = false := by
  rcases h with h | rfl
  · exact endsOperator_of_blank h
  · decide

def spaced (cs : List Char) : List Char :=
  cs.map fun c => if c == ',' then ' ' else c

/-- The expression without gaps and marks. -/
def bare (cs : List Char) : List Char :=
  dropMarks none (dropGaps none cs)

theorem normalize_eq (cs : List Char) : normalize cs = collapse (bare (spaced cs)) :=
  rfl

theorem bare_sublist (cs : List Char) : (bare cs).Sublist cs :=
  (dropMarks_sublist none _).trans (dropGaps_sublist none cs)

theorem normalize_of_ink (h : ∀ c ∈ cs, isBlank c = false ∧ c ≠ ',') :
    normalize cs = dropMarks none cs := by
  have hink : ∀ c ∈ cs, isBlank c = false := fun c hc => (h c hc).1
  have hspaced : spaced cs = cs := by
    rw [spaced, List.map_congr_left (g := id), List.map_id]
    exact fun c hc => if_neg (by simpa using (h c hc).2)
  have hbare : bare cs = dropMarks none cs := by
    rw [bare, dropGaps_of_not_blank hink]
  rw [normalize_eq, hspaced, hbare,
    collapse_of_ink fun c hc => hink c ((dropMarks_sublist none cs).subset hc)]

theorem mem_normalize (h : c ∈ normalize cs) : c = ' ' ∨ c ∈ cs := by
  rcases mem_collapse h with h | h
  · exact .inl h
  · obtain ⟨d, hd, rfl⟩ := List.mem_map.mp ((bare_sublist _).subset h)
    split
    · exact .inl rfl
    · exact .inr hd

/-- Gaps and marks are dropped on both sides of a seam on their own. -/
theorem bare_append_cons (hc : IsSeam c) (cs ds : List Char)
    (hseam : startsVersion ((c :: ds).dropWhile isBlank) = true →
      endsOperator (lastInk none cs) = false) :
    bare (cs ++ c :: ds) = bare cs ++ c :: bare ds := by
  have hgaps : dropGaps none (c :: ds) = c :: dropGaps none ds := by
    have hbefore : endsOperator (some c) = endsOperator none := hc.endsOperator
    rw [dropGaps, if_neg (by simp [endsOperator]), dropGaps_congr hbefore]
  rw [bare, dropGaps_append none cs (c :: ds) (by simpa using hc.isDecimal) hseam, hgaps,
    dropMarks_append_cons hc.isWordChar hc.isDecimal]
  rfl

theorem bare_cons_blank (hc : isBlank c = true) (cs : List Char) : bare (c :: cs) = c :: bare cs :=
  bare_append_cons (.inl hc) [] cs fun _ => rfl

theorem bare_of_blank (h : ∀ c ∈ cs, isBlank c = true) : bare cs = cs := by
  induction cs with
  | nil => rfl
  | cons c cs ih =>
    rw [bare_cons_blank (h c List.mem_cons_self), ih fun d hd => h d (List.mem_cons_of_mem _ hd)]

/-- Spaces and commas, which leave nothing behind at the ends of an expression. -/
def IsGap (cs : List Char) : Prop :=
  ∀ c ∈ cs, isBlank c = true ∨ c = ','

instance (cs : List Char) : Decidable (IsGap cs) :=
  List.decidableBAll _ cs

theorem IsGap.blank_spaced (h : IsGap cs) : ∀ c ∈ spaced cs, isBlank c = true := by
  intro c hc
  obtain ⟨d, hd, rfl⟩ := List.mem_map.mp hc
  rcases h d hd with hblank | rfl
  · split
    · decide
    · exact hblank
  · decide

theorem spaced_append (cs ds : List Char) : spaced (cs ++ ds) = spaced cs ++ spaced ds :=
  List.map_append

theorem words_bare_append_blank (h : ∀ d ∈ ds, isBlank d = true) (cs : List Char) :
    words (bare (cs ++ ds)) = words (bare cs) := by
  cases ds with
  | nil => rw [List.append_nil]
  | cons d ds =>
    have hd := h d List.mem_cons_self
    have hrest : ∀ e ∈ ds, isBlank e = true := fun e he => h e (List.mem_cons_of_mem _ he)
    have hstarts : ¬ startsVersion ((d :: ds).dropWhile isBlank) = true := by
      rw [List.dropWhile_eq_nil_iff.mpr h]
      exact Bool.false_ne_true
    rw [bare_append_cons (.inl hd) cs ds fun hversion => absurd hversion hstarts,
      words_append_blank hd, bare_of_blank hrest, words_eq_nil_iff.mpr hrest, List.append_nil]

theorem words_bare_blank_append (h : ∀ c ∈ cs, isBlank c = true) (ds : List Char) :
    words (bare (cs ++ ds)) = words (bare ds) := by
  induction cs with
  | nil => rfl
  | cons c cs ih =>
    have hc := h c List.mem_cons_self
    rw [List.cons_append, bare_cons_blank hc, words_cons_blank hc,
      ih fun d hd => h d (List.mem_cons_of_mem _ hd)]

theorem normalize_append_gap (h : IsGap ds) (cs : List Char) :
    normalize (cs ++ ds) = normalize cs := by
  rw [normalize_eq, normalize_eq, collapse, collapse, spaced_append,
    words_bare_append_blank h.blank_spaced]

theorem normalize_gap_append (h : IsGap cs) (ds : List Char) :
    normalize (cs ++ ds) = normalize ds := by
  rw [normalize_eq, normalize_eq, collapse, collapse, spaced_append,
    words_bare_blank_append h.blank_spaced]

theorem normalize_bars (cs ds : List Char) :
    ∃ before after : List Char, (∀ d ∈ before ++ after, d = ' ') ∧
      normalize (cs ++ '|' :: '|' :: ds) =
        normalize cs ++ (before ++ '|' :: '|' :: (after ++ normalize ds)) := by
  have hspaced : spaced (cs ++ '|' :: '|' :: ds) = spaced cs ++ '|' :: '|' :: spaced ds := by
    rw [spaced_append]
    rfl
  have hbar : startsVersion (('|' :: '|' :: spaced ds).dropWhile isBlank) = true →
      endsOperator (lastInk none (spaced cs)) = false := by
    intro hstarts
    cases hstarts
  have hpair : bare ('|' :: spaced ds) = '|' :: bare (spaced ds) :=
    bare_append_cons (.inr rfl) [] (spaced ds) fun _ => rfl
  rw [normalize_eq, normalize_eq, normalize_eq, hspaced, bare_append_cons (.inr rfl) _ _ hbar,
    hpair]
  exact collapse_pair (by decide) _ _

end Range

end ModulePins
