import ModulePins.Proofs.SemVer.Canonical
import ModulePins.Proofs.SemVer.Groups

/-!
# Pins

A text that spells a full version is a constraint of one comparator. As a constraint it loses all of
its marks, as a version only the first, so with more than one mark it stands for a version that it
does not name. Apart from this a pin admits the version it stands for and, if that is a pre-release,
its release.
-/

namespace ModulePins

open SemVer Text Sequence

namespace Comparator

variable {digits rest rest' : List Char} {d : Char} {ds : List Char}

/-! ### Numbers of comparators -/

theorem isDigit_of_isDecimal {c : Char} (hdecimal : isDecimal c = true)
    (hc : isFrontChar c = true ∨ isBodyChar c = true) : c.isDigit = true := by
  rcases hc with hc | hc
  · simp only [isFrontChar, Range.endsOperator, Option.any_some, Bool.or_eq_true, beq_iff_eq] at hc
    rcases hc with rfl | (((rfl | rfl) | rfl) | rfl) | rfl <;> cases hdecimal
  · simp only [isBodyChar, isLabelChar, Bool.or_eq_true, beq_iff_eq] at hc
    rcases hc with (((hc | rfl) | rfl) | rfl) | rfl
    · have hrange := toNat_of_isAlphanum hc
      unfold isDecimal digitValue? at hdecimal
      rw [if_pos (by omega)] at hdecimal
      split at hdecimal
      · assumption
      · cases hdecimal
    all_goals cases hdecimal

theorem splitPart?_digits {part : Part} (hne : digits ≠ [])
    (hdigits : ∀ c ∈ digits, c.isDigit = true) (hrest : rest.takeWhile Char.isDigit = [])
    (h : splitPart? (digits ++ rest) = some (part, rest')) :
    (part = .digits digits ∧ rest' = rest ∧ component? digits = number? digits) ∨
      ∃ d ds, rest' = d :: ds ∧ d.isDigit = true := by
  obtain ⟨c, cs, rfl⟩ := List.exists_cons_of_ne_nil hne
  have hc := hdigits c List.mem_cons_self
  have hwild : (c == 'x' || c == 'X' || c == '*') = false := by
    simp only [Bool.or_eq_false_iff, beq_eq_false_iff_ne]
    refine ⟨⟨?_, ?_⟩, ?_⟩ <;>
      · rintro rfl
        cases hc
  rw [List.cons_append, splitPart?, hwild, if_neg (by simp)] at h
  by_cases hzero : c = '0'
  · subst hzero
    cases h
    cases cs with
    | nil => exact .inl ⟨rfl, rfl, by decide⟩
    | cons d ds => exact .inr ⟨d, ds ++ rest, rfl, hdigits d (by simp)⟩
  · obtain ⟨htake, hdrop⟩ := span_append hdigits hrest
    rw [if_neg (by simpa using hzero), if_pos hc, ← List.cons_append, htake, hdrop] at h
    cases h
    refine .inl ⟨rfl, rfl, ?_⟩
    rw [component?, List.dropWhile_cons_of_neg (by simpa using hzero)]

theorem splitNext?_of_isDigit (h : d.isDigit = true) (ds : List Char) :
    splitNext? (d :: ds) = some (none, d :: ds) := by
  unfold splitNext?
  split
  · rename_i heq
    cases heq
    cases h
  · rfl

theorem splitLabel_of_ne {mark : Char} (h : d ≠ mark) (ds : List Char) :
    splitLabel mark (d :: ds) = ([], d :: ds) := by
  rw [splitLabel, if_neg (by simpa using h)]

theorem splitLabels_of_isDigit (h : d.isDigit = true) (ds : List Char) :
    splitLabel '+' (splitLabel '-' (d :: ds)).2 = ([], d :: ds) := by
  have hdash : d ≠ '-' := by
    rintro rfl
    cases h
  have hplus : d ≠ '+' := by
    rintro rfl
    cases h
  rw [splitLabel_of_ne hdash, splitLabel_of_ne hplus]

theorem splitLabel_labelChars (mark : Char) {label : Option (List Char)} {behind : List Char}
    (hlabel : ∀ c ∈ label.getD [], isLabelChar c = true)
    (hbehind : behind.takeWhile isLabelChar = []) (hmark : behind.head? ≠ some mark) :
    splitLabel mark (labelChars mark label ++ behind) = (label.getD [], behind) := by
  cases label with
  | none =>
    cases behind with
    | nil => rfl
    | cons d ds => exact splitLabel_of_ne (by simpa using hmark) ds
  | some label =>
    obtain ⟨htake, hdrop⟩ := span_append hlabel hbehind
    rw [labelChars, List.cons_append, splitLabel, if_pos (by simp)]
    exact Prod.ext htake hdrop

end Comparator

namespace SemVer.Spelling

open Comparator

variable (s : Spelling)

theorem splitLabel_labels :
    splitLabel '-' s.labels = (s.prerelease.getD [], labelChars '+' s.build) := by
  refine splitLabel_labelChars '-' s.isLabelChar_prerelease ?_ ?_
  · cases s.build <;> rfl
  · cases s.build <;> simp [labelChars]

theorem splitLabel_build :
    splitLabel '+' (labelChars '+' s.build) = (s.build.getD [], []) := by
  rw [← List.append_nil (labelChars '+' s.build)]
  exact splitLabel_labelChars '+' s.isLabelChar_build rfl (by simp)

theorem splitOperator_chars (hdigits : ∀ c ∈ s.major, c.isDigit = true) :
    (s.chars.head? == some 'v') = false ∧ splitOperator s.chars = (.eq, s.chars) := by
  obtain ⟨c, cs, hmajor⟩ := List.exists_cons_of_ne_nil s.major_ne_nil
  have hc : c.isDigit = true := hdigits c (by simp [hmajor])
  have hchars : s.chars = c :: (cs ++ '.' :: (s.minor ++ '.' :: (s.patch ++ s.labels))) := by
    rw [chars, hmajor, List.cons_append]
  rw [hchars]
  refine ⟨?_, splitOperator_of_isDigit hc _⟩
  rw [List.head?_cons, beq_eq_false_iff_ne, Ne, Option.some.injEq]
  rintro rfl
  cases hc

theorem written?_chars {w : Written}
    (hdigits : ∀ c ∈ s.chars, isDecimal c = true → c.isDigit = true)
    (h : written? s.chars = some w) :
    w = { operator := .eq, major := .digits s.major, minor := some (.digits s.minor),
          patch := some (.digits s.patch), prerelease := s.prerelease.getD [],
          build := s.build.getD [] } ∧
      component? s.major = number? s.major ∧ component? s.minor = number? s.minor ∧
      component? s.patch = number? s.patch := by
  have hmajorDigits : ∀ c ∈ s.major, c.isDigit = true := fun c hc =>
    hdigits c (by simp [chars, hc]) (s.isDecimal_major c hc)
  have hminorDigits : ∀ c ∈ s.minor, c.isDigit = true := fun c hc =>
    hdigits c (by simp [chars, hc]) (s.isDecimal_minor c hc)
  have hpatchDigits : ∀ c ∈ s.patch, c.isDigit = true := fun c hc =>
    hdigits c (by simp [chars, hc]) (s.isDecimal_patch c hc)
  have hdot : ∀ rest : List Char, ('.' :: rest).takeWhile Char.isDigit = [] := fun _ => rfl
  have hlabels : s.labels.takeWhile Char.isDigit = [] := by
    rw [labels]
    cases s.prerelease <;> cases s.build <;> rfl
  obtain ⟨hhead, hoperator⟩ := s.splitOperator_chars hmajorDigits
  simp only [written?, hhead, hoperator, Bool.false_eq_true, if_false, Option.bind_eq_bind] at h
  -- A number that ends too early leaves a digit behind, and no later piece takes it.
  obtain ⟨⟨major, afterMajor⟩, hmajor, h⟩ := Option.bind_eq_some_iff.mp h
  rw [chars] at hmajor
  rcases splitPart?_digits s.major_ne_nil hmajorDigits (hdot _) hmajor with
    ⟨rfl, rfl, hmajorValue⟩ | ⟨d, ds, rfl, hd⟩
  · obtain ⟨⟨minor, afterMinor⟩, hminor, h⟩ := Option.bind_eq_some_iff.mp h
    obtain ⟨⟨minor, afterMinor'⟩, hminor, heq⟩ := Option.map_eq_some_iff.mp hminor
    cases heq
    rcases splitPart?_digits s.minor_ne_nil hminorDigits (hdot _) hminor with
      ⟨rfl, rfl, hminorValue⟩ | ⟨d, ds, rfl, hd⟩
    · obtain ⟨⟨patch, afterPatch⟩, hpatch, h⟩ := Option.bind_eq_some_iff.mp h
      obtain ⟨⟨patch, afterPatch'⟩, hpatch, heq⟩ := Option.map_eq_some_iff.mp hpatch
      cases heq
      rcases splitPart?_digits s.patch_ne_nil hpatchDigits hlabels hpatch with
        ⟨rfl, rfl, hpatchValue⟩ | ⟨d, ds, rfl, hd⟩
      · simp only [splitLabel_labels, splitLabel_build, List.isEmpty_nil, if_true,
          Option.some.injEq] at h
        exact ⟨h.symm, hmajorValue, hminorValue, hpatchValue⟩
      · simp [splitLabels_of_isDigit hd] at h
    · simp [splitNext?_of_isDigit hd, splitLabels_of_isDigit hd] at h
  · simp [splitNext?_of_isDigit hd, splitLabels_of_isDigit hd] at h

/-- A full version that is read as a comparator is a pin on what it means. -/
theorem exists_means_of_read {comparator : Comparator}
    (h : Group.readComparator s.chars = .ok comparator) :
    ∃ v, s.Means v ∧ comparator = ⟨.eq, .full v⟩ := by
  obtain ⟨w, hw, hof⟩ := readComparator_eq_ok.mp h
  obtain ⟨rfl, hmajor, hminor, hpatch⟩ := s.written?_chars
    (fun c hc hdecimal => isDigit_of_isDecimal hdecimal (chars_of_written? hw c hc)) hw
  simp only [ofWritten?, partValue?, if_true, Option.bind_eq_bind] at hof
  obtain ⟨_, hfirst, hof⟩ := Option.bind_eq_some_iff.mp hof
  obtain ⟨_, hsecond, hof⟩ := Option.bind_eq_some_iff.mp hof
  obtain ⟨_, hthird, hof⟩ := Option.bind_eq_some_iff.mp hof
  obtain ⟨major, hmajorValue, rfl⟩ := Option.map_eq_some_iff.mp hfirst
  obtain ⟨minor, hminorValue, rfl⟩ := Option.map_eq_some_iff.mp hsecond
  obtain ⟨patch, hpatchValue, rfl⟩ := Option.map_eq_some_iff.mp hthird
  obtain ⟨prerelease, hprerelease, hof⟩ := Option.bind_eq_some_iff.mp hof
  obtain ⟨build, hbuild, hof⟩ := Option.bind_eq_some_iff.mp hof
  cases hof
  exact ⟨_, ⟨hmajor.trans hmajorValue, hminor.trans hminorValue, hpatch.trans hpatchValue,
    hprerelease, hbuild⟩, rfl⟩

/-! ### Marks in full versions -/

/-- No mark reaches across the signs of labels. -/
theorem dropMarks_labels (before : Option Char) (pre build : Option (List Char)) :
    dropMarks before (labelChars '-' pre ++ labelChars '+' build) =
      labelChars '-' (pre.map (dropMarks none)) ++ labelChars '+' (build.map (dropMarks none)) := by
  have hdash : ∀ label, dropMarks before ('-' :: label) = '-' :: dropMarks none label :=
    dropMarks_append_cons (by decide) (by decide) before []
  cases pre with
  | none =>
    cases build with
    | none => rfl
    | some build => exact dropMarks_append_cons (by decide) (by decide) before [] build
  | some pre =>
    cases build with
    | none => simpa [labelChars] using hdash pre
    | some build =>
      rw [labelChars, labelChars, List.cons_append, hdash,
        dropMarks_append_cons (by decide) (by decide)]
      rfl

theorem dropFirstMark_labels (before : Option Char) (pre build : Option (List Char)) :
    dropFirstMark before (labelChars '-' pre ++ labelChars '+' build) =
        labelChars '-' (pre.map (dropFirstMark none)) ++ labelChars '+' build ∨
      dropFirstMark before (labelChars '-' pre ++ labelChars '+' build) =
        labelChars '-' pre ++ labelChars '+' (build.map (dropFirstMark none)) := by
  have hsign : ∀ sign, isWordChar sign = false → ∀ label,
      dropFirstMark before (sign :: label) = sign :: dropFirstMark none label := by
    intro sign hsign label
    rw [dropFirstMark, startsMark_of_not_isV (isV_of_isWordChar hsign), if_neg (by simp),
      dropFirstMark_some hsign]
  cases pre with
  | none =>
    cases build with
    | none => exact .inl rfl
    | some build => exact .inr (hsign '+' (by decide) build)
  | some pre =>
    cases build with
    | none =>
      left
      simpa [labelChars] using hsign '-' (by decide) pre
    | some build =>
      rw [labelChars, labelChars, List.cons_append, hsign '-' (by decide)]
      rcases dropFirstMark_append_cons (c := '+') (by decide) (by decide) none pre build with h | h
      · left
        rw [h]
        rfl
      · right
        rw [h]
        rfl

def triple : List Char :=
  s.major ++ '.' :: (s.minor ++ '.' :: s.patch)

theorem chars_eq : s.chars = s.triple ++ s.labels := by
  simp [chars, triple]

theorem isV_triple : ∀ c ∈ s.triple, isV c = false := by
  intro c hc
  simp only [triple, List.mem_append, List.mem_cons] at hc
  rcases hc with hc | rfl | hc | rfl | hc
  · exact isV_of_isDecimal (s.isDecimal_major c hc)
  · decide
  · exact isV_of_isDecimal (s.isDecimal_minor c hc)
  · decide
  · exact isV_of_isDecimal (s.isDecimal_patch c hc)

/-- The full version with parts of its labels left out. -/
def thinned {f g : List Char → List Char} (hf : ∀ cs, (f cs).Sublist cs)
    (hg : ∀ cs, (g cs).Sublist cs) : Spelling :=
  { s with
    prerelease := s.prerelease.map f
    build := s.build.map g
    isLabelChar_prerelease := by
      have hchars := s.isLabelChar_prerelease
      cases hlabel : s.prerelease with
      | none => simp
      | some label =>
        rw [hlabel] at hchars
        exact fun c hc => hchars c ((hf label).subset hc)
    isLabelChar_build := by
      have hchars := s.isLabelChar_build
      cases hlabel : s.build with
      | none => simp
      | some label =>
        rw [hlabel] at hchars
        exact fun c hc => hchars c ((hg label).subset hc) }

theorem chars_thinned {f g : List Char → List Char} (hf : ∀ cs, (f cs).Sublist cs)
    (hg : ∀ cs, (g cs).Sublist cs) : (s.thinned hf hg).chars =
      s.triple ++ (labelChars '-' (s.prerelease.map f) ++ labelChars '+' (s.build.map g)) :=
  chars_eq _

/-- The full version without the marks in its labels. -/
def unmarked : Spelling :=
  s.thinned (dropMarks_sublist none) (dropMarks_sublist none)

theorem dropMarks_chars : dropMarks none s.chars = s.unmarked.chars := by
  obtain ⟨before, htriple⟩ := dropMarks_append_of_not_isV s.isV_triple none s.labels
  rw [chars_eq, htriple, labels, dropMarks_labels, unmarked, chars_thinned]

theorem exists_dropFirstMark : ∃ s' : Spelling, dropFirstMark none s.chars = s'.chars := by
  have hself : ∀ cs : List Char, (id cs).Sublist cs := fun cs => List.Sublist.refl cs
  obtain ⟨before, htriple⟩ := dropFirstMark_append_of_not_isV s.isV_triple none s.labels
  rw [chars_eq, htriple, labels]
  rcases dropFirstMark_labels before s.prerelease s.build with h | h
  · refine ⟨s.thinned (dropFirstMark_sublist none) hself, ?_⟩
    rw [h, chars_thinned, Option.map_id, id]
  · refine ⟨s.thinned hself (dropFirstMark_sublist none), ?_⟩
    rw [h, chars_thinned, Option.map_id, id]

end SemVer.Spelling

namespace SemVer

/-! ### Labels without their marks -/

theorem dropMarks_intercalate (pieces : List (List Char)) :
    dropMarks none (['.'].intercalate pieces) =
      ['.'].intercalate (pieces.map (dropMarks none)) := by
  induction pieces with
  | nil => rfl
  | cons piece pieces ih =>
    by_cases hne : pieces = []
    · subst hne
      simp
    · rw [List.map_cons, List.intercalate_cons_of_ne_nil hne,
        List.intercalate_cons_of_ne_nil (by simpa using hne), List.append_assoc,
        List.append_assoc, List.singleton_append, List.singleton_append,
        dropMarks_append_cons (by decide) (by decide), ih]

theorem splitAt_dropMarks (cs : List Char) :
    splitAt '.' (dropMarks none cs) = (splitAt '.' cs).map (dropMarks none) := by
  have hpieces : ∀ piece ∈ (splitAt '.' cs).map (dropMarks none), '.' ∉ piece := by
    intro piece hpiece hdot
    obtain ⟨whole, hwhole, rfl⟩ := List.mem_map.mp hpiece
    exact not_mem_of_mem_splitAt hwhole ((dropMarks_sublist none whole).subset hdot)
  conv_lhs => rw [← intercalate_splitAt '.' cs]
  rw [dropMarks_intercalate, splitAt_intercalate hpieces (by simpa using splitAt_ne_nil '.' cs)]

section Label

variable {α : Type} {f : List Char → Option α}

theorem exists_mapM_of_dropMarks (hf : ∀ piece y, f (dropMarks none piece) = some y →
      ∃ x, f piece = some x) {pieces : List (List Char)} {ys : List α}
    (h : (pieces.map (dropMarks none)).mapM f = some ys) :
    ∃ xs, pieces.mapM f = some xs ∧ xs.length = ys.length := by
  rw [mapM_eq_some_iff, List.forall₂_map_left_iff] at h
  induction h with
  | nil => exact ⟨[], rfl, rfl⟩
  | cons hy hrest ih =>
    obtain ⟨x, hx⟩ := hf _ _ hy
    obtain ⟨xs, hxs, hlength⟩ := ih
    refine ⟨x :: xs, ?_, congrArg Nat.succ hlength⟩
    rw [mapM_eq_some_iff] at hxs ⊢
    exact .cons hx hxs

theorem exists_readLabel? (hf : ∀ piece y, f (dropMarks none piece) = some y →
      ∃ x, f piece = some x) {cs : List Char} {ys : List α}
    (h : readLabel? f (dropMarks none cs) = some ys) :
    ∃ xs, readLabel? f cs = some xs ∧ (xs = [] ↔ ys = []) := by
  by_cases hcs : cs = []
  · subst hcs
    exact ⟨ys, h, Iff.rfl⟩
  · have hne : dropMarks none cs ≠ [] := mt dropMarks_eq_nil_iff.mp hcs
    rw [readLabel?, if_neg (by simpa using hne), splitAt_dropMarks] at h
    obtain ⟨xs, hxs, hlength⟩ := exists_mapM_of_dropMarks hf h
    refine ⟨xs, by rw [readLabel?, if_neg (by simpa using hcs), hxs], ?_⟩
    rw [← List.length_eq_zero_iff, hlength, List.length_eq_zero_iff]

end Label

/-- A piece with a mark is no number. -/
theorem all_isDigit_of_dropMarks {cs : List Char} (h : dropMarks none cs ≠ cs) :
    cs.isEmpty = false ∧ cs.all Char.isDigit = false := by
  have hless := (countP_dropMarks none cs).resolve_left h
  obtain ⟨c, hc, hv⟩ := List.countP_pos_iff.mp (Nat.zero_lt_of_lt hless)
  refine ⟨by simpa using List.ne_nil_of_mem hc, List.all_eq_false.mpr ⟨c, hc, fun hdigit => ?_⟩⟩
  rw [isV_of_isDigit hdigit] at hv
  cases hv

theorem exists_identifier? (piece : List Char) (y : Identifier)
    (h : identifier? (dropMarks none piece) = some y) : ∃ x, identifier? piece = some x := by
  by_cases hsame : dropMarks none piece = piece
  · exact ⟨y, hsame ▸ h⟩
  · obtain ⟨hne, hdigits⟩ := all_isDigit_of_dropMarks hsame
    exact ⟨.word (String.ofList piece), by rw [identifier?, hne, hdigits]; rfl⟩

theorem exists_buildIdentifier? (piece : List Char) (y : String)
    (h : buildIdentifier? (dropMarks none piece) = some y) :
    ∃ x, buildIdentifier? piece = some x := by
  by_cases hsame : dropMarks none piece = piece
  · exact ⟨y, hsame ▸ h⟩
  · obtain ⟨hne, hdigits⟩ := all_isDigit_of_dropMarks hsame
    exact ⟨String.ofList piece, by rw [buildIdentifier?, hne, hdigits]; rfl⟩

/-- A full version that has a meaning without its marks has one with them, of the same shape. -/
theorem Spelling.exists_means (s : Spelling) {v : SemVer} (h : s.unmarked.Means v) :
    ∃ w, s.Means w ∧ w.core = v.core ∧ (w.prerelease = [] ↔ v.prerelease = []) ∧
      (w.build = [] ↔ v.build = []) := by
  have hlabel : ∀ label : Option (List Char),
      (label.map (dropMarks none)).getD [] = dropMarks none (label.getD []) := by
    intro label
    cases label <;> rfl
  obtain ⟨hmajor, hminor, hpatch, hpre, hbuild⟩ := h
  rw [prerelease?_eq] at hpre
  rw [build?_eq] at hbuild
  obtain ⟨pre, hpre, hpreNil⟩ := exists_readLabel? exists_identifier? ((hlabel _) ▸ hpre)
  obtain ⟨build, hbuild, hbuildNil⟩ :=
    exists_readLabel? exists_buildIdentifier? ((hlabel _) ▸ hbuild)
  exact ⟨⟨v.major, v.minor, v.patch, pre, build⟩, ⟨hmajor, hminor, hpatch, hpre, hbuild⟩, rfl,
    hpreNil, hbuildNil⟩

/-! ### What a pin admits -/

/-- A pin on `pinned` admits the versions with its triple and pre-release, and with its build if it
has one. A pin on a pre-release also admits its release, with any build. -/
def PinAdmits (pinned v : SemVer) : Prop :=
  v.core = pinned.core ∧
    (v.prerelease = pinned.prerelease ∧ (pinned.build = [] ∨ v.build = pinned.build) ∨
      pinned.isPrerelease = true ∧ v.isPrerelease = false)

/-- An exact bound looks at all parts of a version but a build it does not name itself. -/
theorem admits_exact_iff {target v : SemVer} : Clause.admits ⟨.eq, target⟩ v = true ↔
    v.core = target.core ∧ v.prerelease = target.prerelease ∧
      (target.build = [] ∨ v.build = target.build) := by
  have hsame : v.withoutBuild = target.withoutBuild ↔
      v.core = target.core ∧ v.prerelease = target.prerelease := by
    simp only [SemVer.withoutBuild, SemVer.core, SemVer.release, SemVer.mk.injEq, and_true,
      and_assoc]
  simp only [Clause.admits, Clause.holds, Bool.and_eq_true, Bool.or_eq_true, Bool.not_eq_true',
    beq_iff_eq, List.isEmpty_iff, hsame, and_assoc]
  exact ⟨fun h => h.2, fun h => ⟨.inr h.1, h⟩⟩

/-- A pin admits a version of its own shape only if they are the same. -/
theorem pinAdmits_iff_eq {pinned written : SemVer} (hcore : written.core = pinned.core)
    (hpre : written.prerelease = [] ↔ pinned.prerelease = [])
    (hbuild : written.build = [] ↔ pinned.build = []) :
    PinAdmits pinned written ↔ pinned = written := by
  constructor
  · rintro ⟨_, ⟨hsamePre, hsameBuild⟩ | ⟨hpinned, hwritten⟩⟩
    · have hbuilds : written.build = pinned.build := by
        rcases hsameBuild with hnone | hsame
        · rw [hnone, hbuild.mpr hnone]
        · exact hsame
      simp only [SemVer.core, SemVer.release, SemVer.mk.injEq, and_true] at hcore
      obtain ⟨hmajor, hminor, hpatch⟩ := hcore
      cases pinned
      cases written
      simp_all
    · simp only [SemVer.isPrerelease, Bool.not_eq_true', List.isEmpty_eq_false_iff,
        Bool.not_eq_false', List.isEmpty_iff] at hpinned hwritten
      exact absurd (hpre.mp hwritten) hpinned
  · rintro rfl
    exact ⟨rfl, .inl ⟨rfl, .inr rfl⟩⟩

theorem group_admits_pin (pinned v : SemVer) :
    Group.admits ⟨[⟨.eq, .full pinned⟩]⟩ v = true ↔ PinAdmits pinned v := by
  have hclauses : Group.clauses ⟨[⟨.eq, .full pinned⟩]⟩ = [⟨.eq, pinned⟩] := rfl
  rw [Group.admits, Group.admitsNearPrerelease, Group.admitsReleased, hclauses, Bool.or_eq_true,
    PinAdmits]
  by_cases hpre : pinned.isPrerelease = true
  · have hnamed : [(⟨.eq, pinned⟩ : Clause)].filter (·.target.isPrerelease) = [⟨.eq, pinned⟩] := by
      simp [hpre]
    have hcut : Clause.released ⟨.eq, pinned⟩ = ⟨.eq, pinned.core⟩ := if_pos hpre
    have hcore : pinned.core.core = pinned.core ∧ pinned.core.prerelease = [] ∧
        pinned.core.build = [] := ⟨rfl, rfl, rfl⟩
    have hrelease : v.prerelease = [] ↔ v.isPrerelease = false := by simp [SemVer.isPrerelease]
    simp only [hnamed, List.isEmpty_cons, Bool.not_false, Bool.true_and, List.all_cons,
      List.all_nil, Bool.and_true, Clause.confines, hcut, admits_exact_iff, hcore, hrelease, hpre,
      true_and, true_or, and_true]
    exact and_or_left.symm
  · have hnamed : [(⟨.eq, pinned⟩ : Clause)].filter (·.target.isPrerelease) = [] := by
      simp [hpre]
    have hsame : Clause.released ⟨.eq, pinned⟩ = ⟨.eq, pinned⟩ := if_neg hpre
    simp only [hnamed, List.isEmpty_nil, Bool.not_true, Bool.false_eq_true, false_or, List.all_cons,
      List.all_nil, Bool.and_true, hsame, admits_exact_iff, hpre,
      false_and, or_false]

/-! ### Texts of full versions -/

theorem Spelling.not_mem_chars (s : Spelling) {c : Char}
    (h : isDecimal c = false ∧ Comparator.isLabelChar c = false ∧ c ≠ '+') : c ∉ s.chars := by
  intro hc
  rcases s.mem_chars hc with hdecimal | hlabel | hplus
  · rw [h.1] at hdecimal
    cases hdecimal
  · rw [h.2.1] at hlabel
    cases hlabel
  · exact h.2.2 hplus

theorem Spelling.exists_chars (s : Spelling) :
    ∃ d ds, s.chars = d :: ds ∧ isDecimal d = true := by
  obtain ⟨d, ds, hmajor⟩ := List.exists_cons_of_ne_nil s.major_ne_nil
  refine ⟨d, ds ++ '.' :: (s.minor ++ '.' :: (s.patch ++ s.labels)), ?_,
    s.isDecimal_major d (by simp [hmajor])⟩
  rw [Spelling.chars, hmajor, List.cons_append]

/-- The text spells a full version, perhaps with a mark before it, between blanks. -/
def SpellsFull (text : String) : Prop :=
  ∃ (s : Spelling) (front mark back : List Char),
    (∀ c ∈ front, isBlank c = true) ∧ (∀ c ∈ back, isBlank c = true) ∧
      (mark = [] ∨ ∃ c, mark = [c] ∧ isV c = true) ∧
      text.toList = front ++ (mark ++ s.chars ++ back)

/-- What is read of such a text as a version is a full version, and what is read of it as a
constraint is this full version without its marks. -/
theorem SpellsFull.exists_spelling {text : String} (h : SpellsFull text) : ∃ s : Spelling,
    dropFirstMark none (trim text.toList) = s.chars ∧
      Range.normalize text.toList = s.unmarked.chars ∧
      dropMarks none (trim text.toList) = s.unmarked.chars := by
  obtain ⟨s, front, mark, back, hfront, hback, hmark, htext⟩ := h
  have hink : ∀ c ∈ mark ++ s.chars, isBlank c = false ∧ c ≠ ',' := by
    intro c hc
    rcases List.mem_append.mp hc with hc | hc
    · obtain rfl | ⟨v, rfl, hv⟩ := hmark
      · cases hc
      · cases List.mem_singleton.mp hc
        refine ⟨isBlank_of_isAlphanum (isWordChar_of_isV hv), ?_⟩
        rintro rfl
        cases hv
    · exact ⟨s.isBlank_chars c hc,
        ne_of_mem_of_not_mem hc (s.not_mem_chars ⟨by decide, by decide, by decide⟩)⟩
  have htrim : trim text.toList = mark ++ s.chars := by
    rw [htext, trim_blank_append hfront, trim_append_blank hback,
      trim_of_not_blank fun c hc => (hink c hc).1]
  have hnormal : Range.normalize text.toList = dropMarks none (mark ++ s.chars) := by
    rw [htext, Range.normalize_gap_append fun c hc => .inl (hfront c hc),
      Range.normalize_append_gap fun c hc => .inl (hback c hc), Range.normalize_of_ink hink]
  -- A mark in front is the first one; if there is none, the first one stands in a label.
  obtain ⟨s', hfirst⟩ : ∃ s' : Spelling, dropFirstMark none (mark ++ s.chars) = s'.chars := by
    obtain rfl | ⟨v, rfl, hv⟩ := hmark
    · exact s.exists_dropFirstMark
    · obtain ⟨d, ds, hchars, hd⟩ := s.exists_chars
      refine ⟨s, ?_⟩
      rw [List.singleton_append, dropFirstMark,
        if_pos (startsMark_cons_iff.mpr ⟨hv, rfl, d, ds, hchars, hd⟩)]
  have hall : dropMarks none (mark ++ s.chars) = s'.unmarked.chars := by
    rw [← dropMarks_dropFirstMark, hfirst, s'.dropMarks_chars]
  exact ⟨s', by rw [htrim, hfirst], by rw [hnormal, hall], by rw [htrim, hall]⟩

theorem read_word {cs : List Char} (hspace : ' ' ∉ cs) (hne : cs ≠ []) :
    Group.read cs = (Group.readComparator cs).map fun comparator => ⟨[comparator]⟩ := by
  rw [Group.read, if_neg (by simpa using hne), splitDash_of_not_mem hspace,
    splitAt_of_not_mem hspace]
  cases h : Group.readComparator cs <;> simp [h, Except.map, bind, Except.bind, pure, Except.pure]

theorem exists_pinned {text : String} {c : Constraint} {s : Spelling}
    (hnormal : Range.normalize text.toList = s.unmarked.chars)
    (hread : Constraint.read text = .ok c) :
    ∃ pinned, s.unmarked.Means pinned ∧ c.range = ⟨[⟨[⟨.eq, .full pinned⟩]⟩]⟩ := by
  have hgroups := Range.read_eq_ok.mp (Constraint.read_eq_ok.mp hread).2.2
  obtain ⟨d, ds, hchars, _⟩ := s.unmarked.exists_chars
  rw [Range.groupTexts, hnormal,
    splitBars_of_not_mem (s.unmarked.not_mem_chars ⟨by decide, by decide, by decide⟩),
    List.map_singleton, trim_of_not_blank s.unmarked.isBlank_chars, mapM_cons_eq_ok] at hgroups
  obtain ⟨g, rest, hg, hrest, hgroups⟩ := hgroups
  cases hrest
  have hspace := s.unmarked.not_mem_chars (c := ' ') ⟨by decide, by decide, by decide⟩
  rw [read_word hspace (by simp [hchars])] at hg
  cases hcomparator : Group.readComparator s.unmarked.chars with
  | error fault =>
    rw [hcomparator] at hg
    cases hg
  | ok comparator =>
    obtain ⟨pinned, hmeans, rfl⟩ := s.unmarked.exists_means_of_read hcomparator
    rw [hcomparator] at hg
    cases hg
    exact ⟨pinned, hmeans, congrArg Range.mk hgroups⟩

/-- A text that spells a full version and is a constraint is read as a version, too. As a constraint
it stands for what is read of it without all of its marks: this is the same version, and the text
admits itself, exactly if no mark is left when the first one is gone. -/
theorem pin_admits {text : String} {c : Constraint} (htext : SpellsFull text)
    (hread : Constraint.read text = .ok c) :
    ∃ pinned written : SemVer, read? text = some written ∧
      readBare? (dropMarks none (trim text.toList)) = some pinned ∧
      (∀ u v, read? u = some v → (c.admitsText u = true ↔ PinAdmits pinned v)) ∧
      written.core = pinned.core ∧
      (pinned = written ↔ ¬ HasMark none (dropFirstMark none (trim text.toList))) ∧
      (c.admitsText text = true ↔ pinned = written) := by
  obtain ⟨s, hfirst, hnormal, hall⟩ := htext.exists_spelling
  obtain ⟨pinned, hpinned, hrange⟩ := exists_pinned hnormal hread
  obtain ⟨written, hwritten, hcore, hpre, hbuild⟩ := s.exists_means hpinned
  have hreadPinned := s.unmarked.readBare?_chars.mpr hpinned
  have hreadWritten := s.readBare?_chars.mpr hwritten
  have hreadText : read? text = some written := by
    rw [read?, readChars?, hfirst, hreadWritten]
  have hadmits : ∀ u v, read? u = some v → (c.admitsText u = true ↔ PinAdmits pinned v) := by
    intro u v hu
    rw [Constraint.admitsText, hu, Option.any_some, Constraint.admits, Range.admits, hrange,
      List.any_cons, List.any_nil, Bool.or_false, group_admits_pin]
  have hsame : pinned = written ↔ ¬ HasMark none s.chars := by
    rw [← dropMarks_eq_self_iff_not_hasMark]
    constructor
    · -- Every mark takes a letter with it, and the text of a version keeps its letters.
      rintro rfl
      have hcount := (countP_text hreadPinned).symm.trans (countP_text hreadWritten)
      rwa [dropMarks_eq_self_iff, s.dropMarks_chars]
    · intro hnone
      rw [← s.dropMarks_chars, hnone, hreadWritten] at hreadPinned
      exact (Option.some.inj hreadPinned).symm
  exact ⟨pinned, written, hreadText, hall ▸ hreadPinned, hadmits, hcore, hfirst ▸ hsame,
    (hadmits text written hreadText).trans (pinAdmits_iff_eq hcore hpre hbuild)⟩

/-- Texts of version 1.2.3 with a pre-release. -/
def spelled (label : List Char) (h : ∀ c ∈ label, Comparator.isLabelChar c = true) : Spelling where
  major := ['1']
  minor := ['2']
  patch := ['3']
  prerelease := some label
  major_ne_nil := by decide
  minor_ne_nil := by decide
  patch_ne_nil := by decide
  isDecimal_major := List.all_eq_true.mp rfl
  isDecimal_minor := List.all_eq_true.mp rfl
  isDecimal_patch := List.all_eq_true.mp rfl
  isLabelChar_prerelease := h
  isLabelChar_build := List.all_eq_true.mp rfl

theorem pin_admits_itself : ∃ c, Constraint.read " v1.2.3-rc.1" = .ok c ∧
    c.admitsText " v1.2.3-rc.1" = true := by
  have htext : SpellsFull " v1.2.3-rc.1" :=
    ⟨spelled ['r', 'c', '.', '1'] (List.all_eq_true.mp rfl), [' '], ['v'], [],
      List.all_eq_true.mp rfl, by simp, .inr ⟨'v', rfl, rfl⟩, by decide⟩
  have hread : Constraint.read " v1.2.3-rc.1" = .ok ⟨" v1.2.3-rc.1", ⟨[⟨[⟨.eq, .full
      { major := 1, minor := 2, patch := 3, prerelease := [.word "rc", .numeric 1] }⟩]⟩]⟩⟩ := by
    decide +kernel
  obtain ⟨_, _, _, _, _, _, hsame, hself⟩ := pin_admits htext hread
  refine ⟨_, hread, hself.mpr (hsame.mpr ?_)⟩
  exact (dropFirstMark_eq_self_iff _ _).mp (by decide +kernel)

/-- With marks before the version and before its label a pin does not admit itself, but it admits
the release. -/
theorem marked_label_pinned : SpellsFull "v1.2.3-v1" ∧
    ∃ c, Constraint.read "v1.2.3-v1" = .ok c ∧ c.admitsText "v1.2.3-v1" = false ∧
      c.admitsText "1.2.3" = true := by
  refine ⟨⟨spelled ['v', '1'] (List.all_eq_true.mp rfl), [], ['v'], [], by simp, by simp,
    .inr ⟨'v', rfl, rfl⟩, by decide⟩, ⟨"v1.2.3-v1", ⟨[⟨[⟨.eq, .full
      { major := 1, minor := 2, patch := 3, prerelease := [.numeric 1] }⟩]⟩]⟩⟩, ?_, ?_, ?_⟩ <;>
    decide +kernel

end SemVer

end ModulePins
