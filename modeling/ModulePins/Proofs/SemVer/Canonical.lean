import Mathlib.Data.List.Forall2
import Mathlib.Data.List.Induction
import Mathlib.Data.Nat.Digits.Defs
import ModulePins.Proofs.SemVer.Spelling
import ModulePins.Proofs.SemVer.Written

/-!
# The canonical text of a version

The text of a version that was read leniently is a full version again, and its pieces mean the
version. What may keep it from being read back is a mark in a label: the first one is dropped.
-/

namespace ModulePins.SemVer

open Text Comparator

/-! ### Sequences of options -/

theorem mapM_eq_some_iff {α β : Type} {f : α → Option β} {xs : List α} {ys : List β} :
    xs.mapM f = some ys ↔ List.Forall₂ (fun x y => f x = some y) xs ys := by
  induction xs generalizing ys with
  | nil => simp [eq_comm]
  | cons x xs ih =>
    rw [List.mapM_cons, List.forall₂_cons_left_iff]
    simp only [Option.bind_eq_bind, Option.bind_eq_some_iff, Option.pure_def, Option.some.injEq, ih]
    constructor
    · rintro ⟨y, hy, rest, hrest, rfl⟩
      exact ⟨y, rest, hy, hrest, rfl⟩
    · rintro ⟨y, rest, hy, hrest, rfl⟩
      exact ⟨y, hy, rest, hrest, rfl⟩

theorem map_eq_of_mapM {α β γ : Type} {f : α → Option β} {g : β → γ} {k : α → γ} {xs : List α}
    {ys : List β} (h : xs.mapM f = some ys) (hfg : ∀ x y, f x = some y → g y = k x) :
    ys.map g = xs.map k := by
  induction mapM_eq_some_iff.mp h with
  | nil => rfl
  | cons hy hrest ih =>
    rw [List.map_cons, List.map_cons, hfg _ _ hy, ih (mapM_eq_some_iff.mpr hrest)]

theorem exists_of_mem_mapM {α β : Type} {f : α → Option β} {xs : List α} {ys : List β} {y : β}
    (h : xs.mapM f = some ys) (hy : y ∈ ys) : ∃ x ∈ xs, f x = some y := by
  induction mapM_eq_some_iff.mp h with
  | nil => cases hy
  | cons hread hrest ih =>
    rcases List.mem_cons.mp hy with rfl | hy
    · exact ⟨_, List.mem_cons_self, hread⟩
    · obtain ⟨x, hx, hread⟩ := ih (mapM_eq_some_iff.mpr hrest) hy
      exact ⟨x, List.mem_cons_of_mem _ hx, hread⟩

/-! ### Numbers -/

theorem digitValue?_lt {c : Char} {n : Nat} (h : digitValue? c = some n) : n < 10 := by
  unfold digitValue? at h
  split at h
  · split at h
    · rename_i hdigit
      cases h
      have hrange := isDigit_range hdigit
      omega
    · cases h
  · obtain ⟨first, hfound, rfl⟩ := Option.map_eq_some_iff.mp h
    have hrange := List.find?_some hfound
    simp only [Bool.and_eq_true, decide_eq_true_eq] at hrange
    omega

theorem digitsValue_lt (cs : List Char) : digitsValue cs < 10 ^ cs.length := by
  induction cs using List.reverseRecOn with
  | nil => decide
  | append_singleton cs c ih =>
    have hlast : (digitValue? c).getD 0 < 10 := by
      cases hc : digitValue? c with
      | none => decide
      | some n => exact digitValue?_lt hc
    rw [digitsValue_append, List.length_append, List.length_singleton, Nat.pow_succ]
    omega

theorem isShort_of_number? {cs : List Char} {n : Nat} (h : number? cs = some n) : IsShort n := by
  unfold number? at h
  split at h
  · rename_i hlength
    cases h
    refine Nat.toDigits_length 10 _ maxDigits (by decide) ?_
    exact (digitsValue_lt cs).trans_le (Nat.pow_le_pow_right (by decide) hlength)
  · cases h

/-! ### Versions made of readable pieces -/

def isIdentifierChar (c : Char) : Bool :=
  c.isAlphanum || c == '-'

/-- Every piece of the version is read from its own text. -/
structure WellFormed (v : SemVer) : Prop where
  major : IsShort v.major
  minor : IsShort v.minor
  patch : IsShort v.patch
  prerelease : ∀ i ∈ v.prerelease,
    identifier? i.text.toList = some i ∧ ∀ c ∈ i.text.toList, isIdentifierChar c = true
  build : ∀ text ∈ v.build,
    buildIdentifier? text.toList = some text ∧ ∀ c ∈ text.toList, isIdentifierChar c = true

theorem isIdentifierChar_of_isDigit {c : Char} (h : c.isDigit = true) :
    isIdentifierChar c = true := by
  simp [isIdentifierChar, Char.isAlphanum, h]

theorem isLabelChar_iff {c : Char} :
    isLabelChar c = true ↔ isIdentifierChar c = true ∨ c = '.' := by
  simp only [isLabelChar, isIdentifierChar, Bool.or_eq_true, beq_iff_eq]
  exact or_right_comm

theorem ne_dot_of_isIdentifierChar {c : Char} (h : isIdentifierChar c = true) : c ≠ '.' := by
  rintro rfl
  cases h

theorem toList_text_numeric (n : Nat) : (Identifier.numeric n).text.toList = decimals n := by
  simp [Identifier.text, Nat.toString_eq_repr, Nat.toList_repr]

theorem identifier?_decimals {n : Nat} (h : IsShort n) :
    identifier? (decimals n) = some (.numeric n) := by
  have hne : (decimals n).isEmpty = false := by simp
  have hdigits : (decimals n).all Char.isDigit = true :=
    List.all_eq_true.mpr (isDigit_decimals n)
  have hzero : ((decimals n).head? == some '0' && (decimals n).length != 1) = false := by
    by_cases hn : n = 0
    · subst hn
      decide
    · obtain ⟨c, cs, hcs, hc⟩ := decimals_eq_cons hn
      simp [hcs, hc]
  rw [identifier?, hne, hdigits, hzero, number?_decimals, if_pos h]
  rfl

/-- A number loses nothing but its script, and a word is its own text. -/
theorem identifier?_cases {cs : List Char} {i : Identifier} (h : identifier? cs = some i) :
    (∃ n, i = .numeric n ∧ IsShort n ∧ ∀ c ∈ cs, c.isDigit = true) ∨ i.text.toList = cs := by
  unfold identifier? at h
  split at h
  · cases h
  · split at h
    · rename_i hdigits
      split at h
      · cases h
      · obtain ⟨n, hn, rfl⟩ := Option.map_eq_some_iff.mp h
        exact .inl ⟨n, rfl, isShort_of_number? hn, List.all_eq_true.mp hdigits⟩
    · cases h
      exact .inr String.toList_ofList

theorem identifier?_text {cs : List Char} {i : Identifier} (h : identifier? cs = some i) :
    identifier? i.text.toList = some i := by
  rcases identifier?_cases h with ⟨n, rfl, hn, _⟩ | htext
  · rw [toList_text_numeric, identifier?_decimals hn]
  · rw [htext, h]

theorem isIdentifierChar_text {cs : List Char} {i : Identifier} (h : identifier? cs = some i)
    (hcs : ∀ c ∈ cs, isIdentifierChar c = true) :
    ∀ c ∈ i.text.toList, isIdentifierChar c = true := by
  rcases identifier?_cases h with ⟨n, rfl, _, _⟩ | htext
  · rw [toList_text_numeric]
    exact fun c hc => isIdentifierChar_of_isDigit (isDigit_decimals n c hc)
  · rwa [htext]

theorem isV_of_isDigit {c : Char} (h : c.isDigit = true) : isV c = false :=
  isV_of_isDecimal (isDecimal_of_isDigit h)

theorem countP_isV_of_isDigit {cs : List Char} (h : ∀ c ∈ cs, c.isDigit = true) :
    cs.countP isV = 0 := by
  refine List.countP_eq_zero.mpr fun c hc => ?_
  rw [isV_of_isDigit (h c hc)]
  exact Bool.false_ne_true

theorem countP_isV_text {cs : List Char} {i : Identifier} (h : identifier? cs = some i) :
    i.text.toList.countP isV = cs.countP isV := by
  rcases identifier?_cases h with ⟨n, rfl, _, hdigits⟩ | htext
  · rw [toList_text_numeric, countP_isV_of_isDigit (isDigit_decimals n),
      countP_isV_of_isDigit hdigits]
  · rw [htext]

theorem toList_of_buildIdentifier? {cs : List Char} {text : String}
    (h : buildIdentifier? cs = some text) : text.toList = cs := by
  unfold buildIdentifier? at h
  split at h
  · cases h
  · cases h
    exact String.toList_ofList

/-! ### Labels -/

/-- A row of pieces that is read piece by piece, as pre-releases and builds are. -/
def readLabel? {α : Type} (f : List Char → Option α) (cs : List Char) : Option (List α) :=
  if cs.isEmpty then some [] else (splitAt '.' cs).mapM f

theorem prerelease?_eq : prerelease? = readLabel? identifier? := rfl

theorem build?_eq : build? = readLabel? buildIdentifier? := rfl

theorem countP_intercalate {p : Char → Bool} {sep : Char} (hsep : p sep = false)
    (pieces : List (List Char)) :
    ([sep].intercalate pieces).countP p = (pieces.map (List.countP p)).sum := by
  induction pieces with
  | nil => rfl
  | cons piece pieces ih =>
    by_cases hne : pieces = []
    · subst hne
      simp
    · rw [List.intercalate_cons_of_ne_nil hne, List.countP_append, List.countP_append, ih]
      simp [hsep]

theorem splitAt_ne_nil (sep : Char) (cs : List Char) : splitAt sep cs ≠ [] := by
  rw [splitAt_eq_splitOn]
  exact List.splitOn_ne_nil _ _

theorem not_mem_of_mem_splitAt {sep : Char} {cs piece : List Char}
    (h : piece ∈ splitAt sep cs) : sep ∉ piece := by
  induction cs generalizing piece with
  | nil =>
    cases List.mem_singleton.mp h
    exact List.not_mem_nil
  | cons c cs ih =>
    rw [splitAt] at h
    split at h
    · rcases List.mem_cons.mp h with rfl | h
      · exact List.not_mem_nil
      · exact ih h
    · rename_i hc
      split at h
      · rename_i first pieces hpieces
        rw [hpieces] at ih
        rcases List.mem_cons.mp h with rfl | h
        · intro hsep
          rcases List.mem_cons.mp hsep with heq | hmem
          · exact hc (by simp [heq])
          · exact ih List.mem_cons_self hmem
        · exact ih (List.mem_cons_of_mem _ h)
      · rename_i hnil
        exact absurd hnil (splitAt_ne_nil sep cs)

section Label

variable {α : Type} {f : List Char → Option α} {text : α → List Char} {cs : List Char} {xs : List α}

def labelOf (text : α → List Char) (xs : List α) : Option (List Char) :=
  if xs = [] then none else some (['.'].intercalate (xs.map text))

theorem mapM_of_readLabel? (h : readLabel? f cs = some xs) :
    (cs = [] ∧ xs = []) ∨ (xs ≠ [] ∧ (splitAt '.' cs).mapM f = some xs) := by
  unfold readLabel? at h
  split at h
  · rename_i hempty
    cases h
    exact .inl ⟨List.isEmpty_iff.mp hempty, rfl⟩
  · refine .inr ⟨?_, h⟩
    rintro rfl
    have hlength := (mapM_eq_some_iff.mp h).length_eq
    exact splitAt_ne_nil '.' cs (List.length_eq_zero_iff.mp hlength)

theorem exists_piece_of_readLabel? (h : readLabel? f cs = some xs) {x : α} (hx : x ∈ xs) :
    ∃ piece, f piece = some x ∧ '.' ∉ piece ∧ ∀ c ∈ piece, c ∈ cs := by
  rcases mapM_of_readLabel? h with ⟨_, rfl⟩ | ⟨_, hread⟩
  · cases hx
  · obtain ⟨piece, hpiece, hf⟩ := exists_of_mem_mapM hread hx
    refine ⟨piece, hf, not_mem_of_mem_splitAt hpiece, fun c hc => ?_⟩
    have hmem : c ∈ ['.'].intercalate (splitAt '.' cs) := mem_intercalate_of_mem hpiece hc
    rwa [intercalate_splitAt] at hmem

theorem readLabel?_labelOf (hnil : f [] = none) (hread : ∀ x ∈ xs, f (text x) = some x)
    (hdot : ∀ x ∈ xs, '.' ∉ text x) : readLabel? f ((labelOf text xs).getD []) = some xs := by
  by_cases hxs : xs = []
  · subst hxs
    rfl
  · have hne : ['.'].intercalate (xs.map text) ≠ [] := by
      obtain ⟨x, rest, rfl⟩ := List.exists_cons_of_ne_nil hxs
      have htext : text x ≠ [] := by
        intro hempty
        have := hread x List.mem_cons_self
        rw [hempty, hnil] at this
        cases this
      exact intercalate_ne_nil List.mem_cons_self htext
    have hpieces : ∀ piece ∈ xs.map text, '.' ∉ piece := by
      intro piece hpiece
      obtain ⟨x, hx, rfl⟩ := List.mem_map.mp hpiece
      exact hdot x hx
    rw [labelOf, if_neg hxs, Option.getD_some, readLabel?, if_neg (by simpa using hne),
      splitAt_intercalate hpieces (by simpa using hxs), mapM_eq_some_iff,
      List.forall₂_map_left_iff]
    exact List.forall₂_same.mpr hread

/-- Reading a label keeps the number of its letters `v`. -/
theorem countP_labelOf (h : readLabel? f cs = some xs)
    (htext : ∀ piece x, f piece = some x → (text x).countP isV = piece.countP isV) :
    ((labelOf text xs).getD []).countP isV = cs.countP isV := by
  rcases mapM_of_readLabel? h with ⟨rfl, rfl⟩ | ⟨hxs, hread⟩
  · rfl
  · conv_rhs => rw [← intercalate_splitAt '.' cs]
    rw [labelOf, if_neg hxs, Option.getD_some, countP_intercalate (by decide),
      countP_intercalate (by decide), List.map_map]
    exact congrArg List.sum (map_eq_of_mapM hread htext)

end Label

/-! ### The canonical text -/

section Canonical

variable {v : SemVer} {cs : List Char}

theorem isLabelChar_labelOf {α : Type} {text : α → List Char} {xs : List α}
    (h : ∀ x ∈ xs, ∀ c ∈ text x, isIdentifierChar c = true) :
    ∀ c ∈ (labelOf text xs).getD [], isLabelChar c = true := by
  intro c hc
  rw [isLabelChar_iff]
  unfold labelOf at hc
  split at hc
  · cases hc
  · rcases mem_intercalate hc with hdot | ⟨piece, hpiece, hc⟩
    · exact .inr hdot
    · obtain ⟨x, hx, rfl⟩ := List.mem_map.mp hpiece
      exact .inl (h x hx c hc)

/-- The text of a well-formed version as a full version. -/
def WellFormed.spelling (h : WellFormed v) : Spelling where
  major := decimals v.major
  minor := decimals v.minor
  patch := decimals v.patch
  prerelease := labelOf (·.text.toList) v.prerelease
  build := labelOf String.toList v.build
  major_ne_nil := Nat.toDigits_ne_nil
  minor_ne_nil := Nat.toDigits_ne_nil
  patch_ne_nil := Nat.toDigits_ne_nil
  isDecimal_major c hc := isDecimal_of_isDigit (isDigit_decimals _ c hc)
  isDecimal_minor c hc := isDecimal_of_isDigit (isDigit_decimals _ c hc)
  isDecimal_patch c hc := isDecimal_of_isDigit (isDigit_decimals _ c hc)
  isLabelChar_prerelease := isLabelChar_labelOf fun i hi => (h.prerelease i hi).2
  isLabelChar_build := isLabelChar_labelOf fun text htext => (h.build text htext).2

theorem labelChars_labelOf {α : Type} (mark : Char) (text : α → List Char) (xs : List α) :
    labelChars mark (labelOf text xs) =
      if xs = [] then [] else mark :: ['.'].intercalate (xs.map text) := by
  unfold labelOf
  split <;> rfl

theorem toList_text (v : SemVer) :
    v.text.toList = decimals v.major ++ '.' :: (decimals v.minor ++ '.' :: (decimals v.patch ++
      (labelChars '-' (labelOf (·.text.toList) v.prerelease) ++
        labelChars '+' (labelOf String.toList v.build)))) := by
  have hdots : ∀ texts : List String,
      (".".intercalate texts).toList = ['.'].intercalate (texts.map String.toList) := by
    intro texts
    rw [String.toList_intercalate]
    rfl
  rw [labelChars_labelOf, labelChars_labelOf, SemVer.text]
  cases hpre : v.prerelease <;> cases hbuild : v.build <;>
    simp [hdots, String.toList_append, Function.comp_def]

theorem WellFormed.chars_spelling (h : WellFormed v) : h.spelling.chars = v.text.toList :=
  (toList_text v).symm

theorem WellFormed.means_spelling (h : WellFormed v) : h.spelling.Means v where
  major := by rw [WellFormed.spelling, component?_decimals, if_pos h.major]
  minor := by rw [WellFormed.spelling, component?_decimals, if_pos h.minor]
  patch := by rw [WellFormed.spelling, component?_decimals, if_pos h.patch]
  prerelease := by
    rw [prerelease?_eq]
    exact readLabel?_labelOf rfl (fun i hi => (h.prerelease i hi).1) fun i hi hdot =>
      ne_dot_of_isIdentifierChar ((h.prerelease i hi).2 _ hdot) rfl
  build := by
    rw [build?_eq]
    exact readLabel?_labelOf rfl (fun text htext => (h.build text htext).1) fun text htext hdot =>
      ne_dot_of_isIdentifierChar ((h.build text htext).2 _ hdot) rfl

theorem WellFormed.readBare?_text (h : WellFormed v) : readBare? v.text.toList = some v := by
  rw [← h.chars_spelling, Spelling.readBare?_chars]
  exact h.means_spelling

/-! ### What the reader accepts -/

theorem nextComponent_front (cs : List Char) :
    ∃ front, cs = front ++ (nextComponent cs).2 ∧ ∀ c ∈ front, isV c = false := by
  unfold nextComponent
  split
  · split
    · exact ⟨[], rfl, by simp⟩
    · rename_i rest _
      refine ⟨'.' :: rest.takeWhile isDecimal, ?_, ?_⟩
      · rw [List.cons_append, List.takeWhile_append_dropWhile]
      · refine List.forall_mem_cons.mpr ⟨by decide, fun c hc => ?_⟩
        exact isV_of_isDecimal (List.all_eq_true.mp List.all_takeWhile c hc)
  · exact ⟨[], rfl, by simp⟩

/-- The characters behind the triple, with a dash for every one that no version may hold. -/
def cleaned (suffix : List Char) : List Char :=
  suffix.map fun c => if isSuffixChar c then c else '-'

def joined (build : List Char) : List Char :=
  build.map fun c => if c == '+' then '.' else c

theorem exists_suffix_of_readBare? (h : readBare? cs = some v) :
    ∃ triple suffix, cs = triple ++ suffix ∧ (∀ c ∈ triple, isV c = false) ∧
      IsShort v.major ∧ IsShort v.minor ∧ IsShort v.patch ∧
      prerelease? (splitSuffix (cleaned suffix)).1 = some v.prerelease ∧
      build? (joined (splitSuffix (cleaned suffix)).2) = some v.build := by
  simp only [readBare?, Option.bind_eq_bind] at h
  split at h
  · cases h
  · obtain ⟨front, hfront, hfrontV⟩ := nextComponent_front (cs.dropWhile isDecimal)
    generalize nextComponent (cs.dropWhile isDecimal) = second at h hfront
    obtain ⟨back, hback, hbackV⟩ : ∃ back, second.2 = back ++
        (if second.1.isEmpty then ([], second.2) else nextComponent second.2).2 ∧
        ∀ c ∈ back, isV c = false := by
      split
      · exact ⟨[], rfl, by simp⟩
      · exact nextComponent_front second.2
    generalize (if second.1.isEmpty then ([], second.2) else nextComponent second.2) = third
      at h hback
    obtain ⟨major, hmajor, h⟩ := Option.bind_eq_some_iff.mp h
    obtain ⟨minor, hminor, h⟩ := Option.bind_eq_some_iff.mp h
    obtain ⟨patch, hpatch, h⟩ := Option.bind_eq_some_iff.mp h
    obtain ⟨prerelease, hpre, h⟩ := Option.bind_eq_some_iff.mp h
    obtain ⟨build, hbuild, h⟩ := Option.bind_eq_some_iff.mp h
    cases h
    refine ⟨cs.takeWhile isDecimal ++ (front ++ back), third.2, ?_, ?_, isShort_of_number? hmajor,
      isShort_of_number? hminor, isShort_of_number? hpatch, hpre, hbuild⟩
    · rw [List.append_assoc, List.append_assoc, ← hback, ← hfront,
        List.takeWhile_append_dropWhile]
    · simp only [List.mem_append]
      rintro c (hc | hc | hc)
      · exact isV_of_isDecimal (List.all_eq_true.mp List.all_takeWhile c hc)
      · exact hfrontV c hc
      · exact hbackV c hc

theorem splitPlus_parts (cs : List Char) :
    (∀ c ∈ (splitPlus cs).1, c ∈ cs ∧ c ≠ '+') ∧ (∀ c ∈ (splitPlus cs).2, c ∈ cs) ∧
      (splitPlus cs).1.countP isV + (splitPlus cs).2.countP isV = cs.countP isV := by
  refine ⟨fun c hc => ⟨(List.takeWhile_prefix _).subset hc, ?_⟩, fun c hc => ?_, ?_⟩
  · exact bne_iff_ne.mp (List.all_eq_true.mp List.all_takeWhile c hc)
  · exact (List.dropWhile_suffix _).subset (List.mem_of_mem_drop hc)
  · conv_rhs =>
      rw [← List.takeWhile_append_dropWhile (p := (· != '+')) (l := cs), List.countP_append]
    rw [splitPlus]
    have hstop := List.head?_dropWhile_not (· != '+') cs
    cases hrest : cs.dropWhile (· != '+') with
    | nil => simp
    | cons c rest =>
      rw [hrest] at hstop
      have hc : c = '+' := by simpa using hstop
      rw [hc, List.drop_one, List.tail_cons, List.countP_cons_of_neg (by decide)]

theorem splitSuffix_parts (cs : List Char) :
    (∀ c ∈ (splitSuffix cs).1, c ∈ cs ∧ c ≠ '+') ∧ (∀ c ∈ (splitSuffix cs).2, c ∈ cs) ∧
      (splitSuffix cs).1.countP isV + (splitSuffix cs).2.countP isV = cs.countP isV := by
  unfold splitSuffix
  split
  · refine ⟨by simp, fun c hc => List.mem_cons_of_mem _ hc, ?_⟩
    rw [List.countP_cons_of_neg (by decide)]
    simp
  · refine ⟨by simp, fun c hc => List.mem_cons_of_mem _ hc, ?_⟩
    rw [List.countP_cons_of_neg (by decide)]
    simp
  · obtain ⟨hpre, hbuild, hcount⟩ := splitPlus_parts ‹_›
    refine ⟨fun c hc => ⟨List.mem_cons_of_mem _ (hpre c hc).1, (hpre c hc).2⟩,
      fun c hc => List.mem_cons_of_mem _ (hbuild c hc), ?_⟩
    rw [List.countP_cons_of_neg (by decide), hcount]
  · exact splitPlus_parts cs

theorem countP_cleaned (suffix : List Char) : (cleaned suffix).countP isV = suffix.countP isV := by
  rw [cleaned, List.countP_map]
  refine List.countP_congr fun c _ => ?_
  by_cases hc : isSuffixChar c = true
  · simp [hc]
  · have hv : isV c = false := by
      refine Bool.eq_false_iff.mpr fun hv => hc ?_
      simp only [isV, Bool.or_eq_true, beq_iff_eq] at hv
      rcases hv with rfl | rfl <;> decide
    have hdash : isV '-' = false := by decide
    simp [hc, hv, hdash]

theorem countP_joined (build : List Char) : (joined build).countP isV = build.countP isV := by
  rw [joined, List.countP_map]
  refine List.countP_congr fun c _ => ?_
  by_cases hc : c = '+'
  · subst hc
    decide
  · simp [hc]

theorem isSuffixChar_cleaned {suffix : List Char} :
    ∀ c ∈ cleaned suffix, isSuffixChar c = true := by
  intro c hc
  obtain ⟨d, _, rfl⟩ := List.mem_map.mp hc
  split
  · assumption
  · decide

theorem isIdentifierChar_of_isSuffixChar {c : Char} (h : isSuffixChar c = true) (hplus : c ≠ '+')
    (hdot : c ≠ '.') : isIdentifierChar c = true := by
  simp only [isSuffixChar, Bool.or_eq_true, beq_iff_eq, hplus, hdot, or_false] at h
  simpa [isIdentifierChar] using h

theorem wellFormed_of_readBare? (h : readBare? cs = some v) : WellFormed v := by
  obtain ⟨triple, suffix, _, _, hmajor, hminor, hpatch, hpre, hbuild⟩ :=
    exists_suffix_of_readBare? h
  obtain ⟨hpreChars, hbuildChars, _⟩ := splitSuffix_parts (cleaned suffix)
  refine ⟨hmajor, hminor, hpatch, fun i hi => ?_, fun text htext => ?_⟩
  · obtain ⟨piece, hpiece, hdot, hmem⟩ := exists_piece_of_readLabel? hpre hi
    refine ⟨identifier?_text hpiece, isIdentifierChar_text hpiece fun c hc => ?_⟩
    obtain ⟨hclean, hplus⟩ := hpreChars c (hmem c hc)
    exact isIdentifierChar_of_isSuffixChar (isSuffixChar_cleaned c hclean) hplus
      (ne_of_mem_of_not_mem hc hdot)
  · obtain ⟨piece, hpiece, hdot, hmem⟩ := exists_piece_of_readLabel? hbuild htext
    rw [toList_of_buildIdentifier? hpiece]
    refine ⟨hpiece, fun c hc => ?_⟩
    obtain ⟨d, hd, rfl⟩ := List.mem_map.mp (hmem c hc)
    have hclean := isSuffixChar_cleaned d (hbuildChars d hd)
    have hne := ne_of_mem_of_not_mem hc hdot
    by_cases hplus : d = '+'
    · simp [hplus] at hne
    · simp only [beq_iff_eq, hplus, if_false] at hne ⊢
      exact isIdentifierChar_of_isSuffixChar hclean hplus hne

theorem countP_text (h : readBare? cs = some v) : v.text.toList.countP isV = cs.countP isV := by
  obtain ⟨triple, suffix, rfl, htriple, _, _, _, hpre, hbuild⟩ := exists_suffix_of_readBare? h
  obtain ⟨_, _, hcount⟩ := splitSuffix_parts (cleaned suffix)
  have hmark : ∀ {mark : Char} (label : Option (List Char)), isV mark = false →
      (labelChars mark label).countP isV = (label.getD []).countP isV := by
    intro mark label hmark
    cases label with
    | none => rfl
    | some label => simp [labelChars, hmark]
  have htripleCount : triple.countP isV = 0 :=
    List.countP_eq_zero.mpr fun c hc => by simp [htriple c hc]
  have hpreCount := countP_labelOf hpre fun piece i hi => countP_isV_text hi
  have hbuildCount := countP_labelOf hbuild fun piece text htext =>
    congrArg (List.countP isV) (toList_of_buildIdentifier? htext)
  have hdot : isV '.' = false := by decide
  rw [toList_text]
  simp only [List.countP_append, List.countP_cons, hdot, Bool.false_eq_true, if_false,
    countP_isV_of_isDigit (isDigit_decimals _), hmark _ (show isV '-' = false by decide),
    hmark _ (show isV '+' = false by decide), hpreCount, hbuildCount, countP_joined, htripleCount]
  rw [← countP_cleaned suffix, ← hcount]
  omega

theorem WellFormed.trim_text (h : WellFormed v) : trim v.text.toList = v.text.toList := by
  rw [← h.chars_spelling]
  exact trim_of_not_blank h.spelling.isBlank_chars

theorem trim_cons {c : Char} (hc : isBlank c = false) (cs : List Char) :
    trim (c :: cs) = c :: trimEnd cs := by
  have hlast : ([c] : List Char).dropWhile isBlank = [c] := by simp [hc]
  rw [trim, List.dropWhile_cons_of_neg (by simp [hc]), trimEnd, trimEnd, List.reverse_cons,
    List.dropWhile_append, hlast]
  split
  · rename_i hempty
    rw [List.isEmpty_iff.mp hempty]
    rfl
  · rw [List.reverse_append]
    rfl

/-- With a mark before its first digit a text is read as it stands. -/
theorem read?_mark {text : String} {d : Char} {ds : List Char} (htext : text.toList = d :: ds)
    (hd : isDecimal d = true) : read? ("v" ++ text) = readBare? (trim text.toList) := by
  have hmark : startsMark none ('v' :: d :: trimEnd ds) = true :=
    startsMark_cons_iff.mpr ⟨rfl, rfl, d, _, rfl, hd⟩
  have hchars : ("v" ++ text).toList = 'v' :: d :: ds := by
    rw [String.toList_append, htext]
    rfl
  have hblank := isBlank_of_isDecimal hd
  have htrim : trim ('v' :: d :: ds) = 'v' :: d :: trimEnd ds := by
    have hend := trim_cons hblank ds
    rw [trim, List.dropWhile_cons_of_neg (by simp [hblank])] at hend
    rw [trim_cons (by decide), hend]
  rw [read?, readChars?, hchars, htrim, dropFirstMark, if_pos hmark, htext, trim_cons hblank]

end Canonical

/-- A version is read back from its canonical text exactly if this text holds no mark. A mark before
a text that begins with a digit makes no difference exactly if the text holds no mark of its own, or
is no version either way. -/
theorem read_canonical_iff (text : String) :
    (∀ v, read? text = some v → (read? v.text = some v ↔ ¬ HasMark none v.text.toList)) ∧
    ((∃ d ∈ text.toList.head?, isDecimal d = true) →
      (read? ("v" ++ text) = read? text ↔
        ¬ HasMark none (trim text.toList) ∨ read? ("v" ++ text) = none ∧ read? text = none)) := by
  constructor
  · intro v hread
    have hv := wellFormed_of_readBare? hread
    rw [read?, readChars?, hv.trim_text]
    constructor
    · -- A mark would take a letter with it, and reading keeps the letters.
      intro hagain
      exact not_hasMark_iff.mpr (countP_text hagain).symm
    · intro hnone
      rw [(dropFirstMark_eq_self_iff none _).mpr hnone, hv.readBare?_text]
  · rintro ⟨d, hd, hdecimal⟩
    obtain ⟨ds, htext⟩ := List.head?_eq_some_iff.mp hd
    rw [read?_mark htext hdecimal, read?, readChars?]
    constructor
    · intro hsame
      cases hread : readBare? (trim text.toList) with
      | none => exact .inr ⟨rfl, hsame ▸ hread⟩
      | some v =>
        left
        have hagain := hsame.symm.trans hread
        exact not_hasMark_iff.mpr ((countP_text hagain).symm.trans (countP_text hread))
    · rintro (hnone | ⟨hfirst, hsecond⟩)
      · rw [(dropFirstMark_eq_self_iff none _).mpr hnone]
      · rw [hfirst, hsecond]

theorem short_form_read_back :
    (∃ v, read? " v01.2-rc_1 " = some v ∧ read? v.text = some v) ∧
      read? ("v" ++ "01.2-rc_1") = read? "01.2-rc_1" := by
  constructor
  · have hread : read? " v01.2-rc_1 " =
        some { major := 1, minor := 2, patch := 0, prerelease := [.word "rc-1"] } := by
      decide +kernel
    refine ⟨_, hread, ((read_canonical_iff _).1 _ hread).mpr ?_⟩
    exact (dropFirstMark_eq_self_iff _ _).mp (by decide +kernel)
  · refine ((read_canonical_iff "01.2-rc_1").2 ⟨'0', by decide, by decide⟩).mpr (.inl ?_)
    exact (dropFirstMark_eq_self_iff _ _).mp (by decide +kernel)

/-- A label loses its mark, so the version it was read from is not read back, and it matters whether
the text begins with a mark. -/
theorem label_mark_lost :
    ∃ v, read? "v1.2.3-v1" = some v ∧ read? v.text ≠ some v ∧
      read? ("v" ++ "1.2.3-v1") ≠ read? "1.2.3-v1" := by
  refine ⟨{ major := 1, minor := 2, patch := 3, prerelease := [.word "v1"] }, ?_, ?_, ?_⟩ <;>
    decide +kernel

end ModulePins.SemVer
