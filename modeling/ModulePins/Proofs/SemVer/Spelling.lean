import ModulePins.Proofs.SemVer.Marks

/-!
# Full versions as written

A full version is written as three numbers with dots between them, a dash and a pre-release if there
is one, and a plus sign and a build if there is one. The version it is read as can be told from the
pieces.
-/

namespace ModulePins.SemVer

open Text Comparator

def labelChars (mark : Char) : Option (List Char) → List Char
  | none => []
  | some label => mark :: label

/-- The pieces of a full version: digits of any script, and labels of letters, digits, dots and
dashes, which may be empty. -/
structure Spelling where
  major : List Char
  minor : List Char
  patch : List Char
  prerelease : Option (List Char) := none
  build : Option (List Char) := none
  major_ne_nil : major ≠ []
  minor_ne_nil : minor ≠ []
  patch_ne_nil : patch ≠ []
  isDecimal_major : ∀ c ∈ major, isDecimal c = true
  isDecimal_minor : ∀ c ∈ minor, isDecimal c = true
  isDecimal_patch : ∀ c ∈ patch, isDecimal c = true
  isLabelChar_prerelease : ∀ c ∈ prerelease.getD [], isLabelChar c = true
  isLabelChar_build : ∀ c ∈ build.getD [], isLabelChar c = true

namespace Spelling

variable (s : Spelling)

def labels : List Char :=
  labelChars '-' s.prerelease ++ labelChars '+' s.build

def chars : List Char :=
  s.major ++ '.' :: (s.minor ++ '.' :: (s.patch ++ s.labels))

/-- The pieces are those of the version. -/
structure Means (s : Spelling) (v : SemVer) : Prop where
  major : component? s.major = some v.major
  minor : component? s.minor = some v.minor
  patch : component? s.patch = some v.patch
  prerelease : prerelease? (s.prerelease.getD []) = some v.prerelease
  build : build? (s.build.getD []) = some v.build

theorem isLabelChar_ne_plus {c : Char} (h : isLabelChar c = true) : c ≠ '+' := by
  rintro rfl
  cases h

theorem isSuffixChar_of_isLabelChar {c : Char} (h : isLabelChar c = true) :
    isSuffixChar c = true := by
  simp only [isLabelChar, Bool.or_eq_true] at h
  simp only [isSuffixChar, Bool.or_eq_true]
  rcases h with (h | h) | h
  · exact .inl (.inl (.inl h))
  · exact .inl (.inr h)
  · exact .inr h

theorem isBlank_of_isLabelChar {c : Char} (h : isLabelChar c = true) : isBlank c = false := by
  simp only [isLabelChar, Bool.or_eq_true, beq_iff_eq] at h
  rcases h with (h | rfl) | rfl
  · exact isBlank_of_isAlphanum h
  · decide
  · decide

theorem mem_labels {c : Char} (h : c ∈ s.labels) : isLabelChar c = true ∨ c = '+' := by
  have hpre := s.isLabelChar_prerelease
  have hbuild := s.isLabelChar_build
  rcases List.mem_append.mp h with h | h
  · left
    cases hp : s.prerelease with
    | none => simp [hp, labelChars] at h
    | some label =>
      rw [hp] at h hpre
      rcases List.mem_cons.mp h with rfl | h
      · decide
      · exact hpre c h
  · cases hb : s.build with
    | none => simp [hb, labelChars] at h
    | some label =>
      rw [hb] at h hbuild
      rcases List.mem_cons.mp h with rfl | h
      · exact .inr rfl
      · exact .inl (hbuild c h)

theorem mem_chars {c : Char} (h : c ∈ s.chars) :
    isDecimal c = true ∨ isLabelChar c = true ∨ c = '+' := by
  simp only [chars, List.mem_append, List.mem_cons] at h
  rcases h with h | rfl | h | rfl | h | h
  · exact .inl (s.isDecimal_major c h)
  · exact .inr (.inl (by decide))
  · exact .inl (s.isDecimal_minor c h)
  · exact .inr (.inl (by decide))
  · exact .inl (s.isDecimal_patch c h)
  · exact .inr (s.mem_labels h)

theorem isBlank_chars : ∀ c ∈ s.chars, isBlank c = false := by
  intro c hc
  rcases s.mem_chars hc with h | h | rfl
  · exact isBlank_of_isDecimal h
  · exact isBlank_of_isLabelChar h
  · decide

theorem takeWhile_labels : s.labels.takeWhile isDecimal = [] := by
  rw [labels]
  cases s.prerelease <;> cases s.build <;> rfl

theorem nextComponent_append {digits rest : List Char} (hne : digits ≠ [])
    (hdigits : ∀ c ∈ digits, isDecimal c = true) (hrest : rest.takeWhile isDecimal = []) :
    nextComponent ('.' :: (digits ++ rest)) = (digits, rest) := by
  obtain ⟨htake, hdrop⟩ := span_append hdigits hrest
  simp [nextComponent, htake, hdrop, hne]

theorem map_labels :
    (s.labels.map fun c => if isSuffixChar c then c else '-') = s.labels := by
  rw [List.map_congr_left (g := id), List.map_id]
  intro c hc
  refine if_pos ?_
  rcases s.mem_labels hc with h | rfl
  · exact isSuffixChar_of_isLabelChar h
  · decide

theorem splitPlus_append {label : List Char} (h : ∀ c ∈ label, isLabelChar c = true)
    (build : Option (List Char)) :
    splitPlus (label ++ labelChars '+' build) = (label, build.getD []) := by
  have hall : ∀ c ∈ label, (c != '+') = true :=
    fun c hc => bne_iff_ne.mpr (isLabelChar_ne_plus (h c hc))
  have hstop : (labelChars '+' build).takeWhile (· != '+') = [] := by
    cases build <;> rfl
  obtain ⟨htake, hdrop⟩ := span_append hall hstop
  rw [splitPlus, htake, hdrop]
  cases build <;> rfl

theorem splitSuffix_labels :
    splitSuffix s.labels = (s.prerelease.getD [], s.build.getD []) := by
  have hpre := s.isLabelChar_prerelease
  rw [labels]
  cases hp : s.prerelease with
  | none => cases s.build <;> rfl
  | some label =>
    rw [hp] at hpre
    exact splitPlus_append hpre s.build

theorem map_build : ((s.build.getD []).map fun c => if c == '+' then '.' else c) =
    s.build.getD [] := by
  rw [List.map_congr_left (g := id), List.map_id]
  intro c hc
  exact if_neg (by simpa using isLabelChar_ne_plus (s.isLabelChar_build c hc))

theorem readBare?_chars {v : SemVer} : readBare? s.chars = some v ↔ s.Means v := by
  have hdot : ∀ rest : List Char, ('.' :: rest).takeWhile isDecimal = [] := fun _ => rfl
  obtain ⟨htake, hdrop⟩ :=
    span_append s.isDecimal_major (hdot (s.minor ++ '.' :: (s.patch ++ s.labels)))
  have hminor := nextComponent_append s.minor_ne_nil s.isDecimal_minor (hdot (s.patch ++ s.labels))
  have hpatch := nextComponent_append s.patch_ne_nil s.isDecimal_patch s.takeWhile_labels
  have hmajorEmpty : s.major.isEmpty = false := by simpa using s.major_ne_nil
  have hminorEmpty : s.minor.isEmpty = false := by simpa using s.minor_ne_nil
  simp only [readBare?, chars, htake, hdrop, hmajorEmpty, hminor, hminorEmpty, hpatch, map_labels,
    splitSuffix_labels, map_build, Bool.false_eq_true, if_false, Option.bind_eq_bind,
    Option.bind_eq_some_iff, Option.pure_def, Option.some.injEq]
  constructor
  · rintro ⟨major, hmajor, minor, hminor, patch, hpatch, pre, hpre, build, hbuild, rfl⟩
    exact ⟨hmajor, hminor, hpatch, hpre, hbuild⟩
  · rintro ⟨hmajor, hminor, hpatch, hpre, hbuild⟩
    exact ⟨_, hmajor, _, hminor, _, hpatch, _, hpre, _, hbuild, rfl⟩

end Spelling

end ModulePins.SemVer
