import ModulePins.Proofs.SemVer.Groups

/-!
# Pre-releases in ranges

A group admits a pre-release only next to a pre-release it names, or just below its end: a group of
nothing but upper bounds that all stop at one release admits the pre-releases of this release.
-/

namespace ModulePins

open SemVer Text Sequence

namespace Comparator

def NamesPrerelease (c : Comparator) : Prop :=
  ∃ w, c.operand = .full w ∧ w.isPrerelease = true

/-- The comparator was written with a pre-release of the triple of `v`. -/
def NamesPrereleaseOf (c : Comparator) (v : SemVer) : Prop :=
  ∃ w, c.operand = .full w ∧ w.isPrerelease = true ∧ w.core = v.core

/-- The release an upper bound stops at, if no pre-release was written: the version of `<` and of
`<=` itself, or the first release after the line of `<=`. -/
def upperEnd? (c : Comparator) : Option SemVer :=
  match c.operator, c.operand with
  | .lt, .full w | .le, .full w => if w.isPrerelease then none else some w.core
  | .lt, .majorLine _ | .lt, .minorLine _ _ => some (lineStart c.operand)
  | .le, .majorLine _ | .le, .minorLine _ _ => some (lineEnd c.operand)
  | _, _ => none

end Comparator

namespace Group

def NamesPrerelease (g : Group) : Prop :=
  ∃ c ∈ g.comparators, c.NamesPrerelease

/-- Some comparator names a pre-release of the triple of `v`. -/
def NamesPrereleaseOf (g : Group) (v : SemVer) : Prop :=
  ∃ c ∈ g.comparators, c.NamesPrereleaseOf v

/-- All comparators are upper bounds that stop at the release of `v`. -/
def StopsAt (g : Group) (v : SemVer) : Prop :=
  ∀ c ∈ g.comparators, c.upperEnd? = some v.core

end Group

variable {v : SemVer}

/-! ### Plain bounds -/

theorem isPrerelease_eq_false {w : SemVer} (h : ¬ w.isPrerelease = true) : w.prerelease = [] := by
  simpa [SemVer.isPrerelease] using h

theorem precedence_of_core {w : SemVer} (hpre : v.isPrerelease = true)
    (hw : ¬ w.isPrerelease = true) (hcore : w.core = v.core) : v.precedence w = .lt := by
  simp only [SemVer.core, SemVer.release, SemVer.mk.injEq, and_true] at hcore
  obtain ⟨hmajor, hminor, hpatch⟩ := hcore
  cases hv : v.prerelease with
  | nil => simp [SemVer.isPrerelease, hv] at hpre
  | cons p ps =>
    simp [SemVer.precedence, hmajor, hminor, hpatch, isPrerelease_eq_false hw, hv,
      SemVer.prereleaseOrder]

/-- Of the bounds on releases only upper ones admit a pre-release, and only of their own triple. -/
theorem Clause.admits_prerelease_iff {c : Clause} (hpre : v.isPrerelease = true)
    (hc : ¬ c.target.isPrerelease = true) :
    c.admits v = true ↔ (c.relation = .lt ∨ c.relation = .le) ∧ c.target.core = v.core := by
  by_cases hcore : c.target.core = v.core
  · have hlt := precedence_of_core hpre hc hcore
    have hne : v.prerelease ≠ [] := by simpa [SemVer.isPrerelease] using hpre
    have hdiffer : v.withoutBuild ≠ c.target.withoutBuild := by
      intro hsame
      have hlabels := congrArg SemVer.prerelease hsame
      exact hne (hlabels.trans (isPrerelease_eq_false hc))
    cases hrelation : c.relation <;>
      simp [Clause.admits, Clause.holds, hrelation, hpre, hcore, hlt, hdiffer]
  · simp [Clause.admits, hpre, hcore, Ne.symm hcore]

theorem Clause.core_of_admits {c : Clause} (hpre : v.isPrerelease = true)
    (h : c.admits v = true) : c.target.core = v.core := by
  simp only [Clause.admits, hpre, Bool.not_true, Bool.false_or, Bool.and_eq_true, beq_iff_eq] at h
  exact h.1.symm

theorem Clause.released_of_release {c : Clause} (h : ¬ c.target.isPrerelease = true) :
    c.released = c := by
  rw [Clause.released, if_neg h]

theorem Clause.core_released (c : Clause) : c.released.target.core = c.target.core := by
  rw [Clause.released]
  split
  · rfl
  · rfl

/-! ### Comparators -/

theorem Comparator.operand_of_target {c : Comparator} {bound : Clause} (hmem : bound ∈ c.clauses)
    (hpre : bound.target.isPrerelease = true) : c.operand = .full bound.target := by
  obtain ⟨operator, operand⟩ := c
  cases operand <;> cases operator <;>
    simp [Comparator.clauses, Comparator.lineStart, Comparator.lineEnd] at hmem <;>
    grind [SemVer.isPrerelease, SemVer.release, SemVer.nextMinor, Comparator.caretEnd]

theorem Comparator.not_namesPrerelease_of_upperEnd {c : Comparator} {w : SemVer}
    (h : c.upperEnd? = some w) : ¬ c.NamesPrerelease := by
  rintro ⟨named, hnamed, hpre⟩
  obtain ⟨operator, operand⟩ := c
  subst hnamed
  cases operator <;> simp [Comparator.upperEnd?, hpre] at h

theorem Comparator.exists_bound {c : Comparator} {w : SemVer} (h : c.operand = .full w) :
    ∃ bound ∈ c.clauses, bound.target = w := by
  obtain ⟨operator, operand⟩ := c
  subst h
  cases operator <;> simp [Comparator.clauses, Comparator.lineStart]

/-- Without its pre-releases a comparator admits a pre-release exactly if it is an upper bound that
stops at the release. -/
theorem Comparator.admits_prerelease_iff {c : Comparator} (hpre : v.isPrerelease = true)
    (hc : ¬ c.NamesPrerelease) :
    (∀ bound ∈ c.clauses, bound.released.admits v = true) ↔ c.upperEnd? = some v.core := by
  have hbound : ∀ bound ∈ c.clauses, ¬ bound.target.isPrerelease = true :=
    fun bound hmem hpre => hc ⟨_, Comparator.operand_of_target hmem hpre, hpre⟩
  -- No bound is on a pre-release, so cutting changes none and each may be looked at on its own.
  have hall : (∀ bound ∈ c.clauses, bound.released.admits v = true) ↔ ∀ bound ∈ c.clauses,
      (bound.relation = .lt ∨ bound.relation = .le) ∧ bound.target.core = v.core := by
    refine forall₂_congr fun bound hmem => ?_
    rw [Clause.released_of_release (hbound bound hmem),
      Clause.admits_prerelease_iff hpre (hbound bound hmem)]
  rw [hall]
  obtain ⟨operator, operand⟩ := c
  cases operand <;> cases operator <;>
    simp [Comparator.clauses, Comparator.upperEnd?, Comparator.lineStart, Comparator.lineEnd,
      Comparator.NamesPrerelease, SemVer.core, SemVer.release] at hc ⊢
  all_goals exact fun _ _ _ => hc

/-! ### Groups -/

namespace Group

variable {g : Group}

theorem mem_clauses {bound : Clause} :
    bound ∈ g.clauses ↔ ∃ c ∈ g.comparators, bound ∈ c.clauses :=
  List.mem_flatMap

theorem admitsReleased_iff : g.admitsReleased v = true ↔
    ∀ c ∈ g.comparators, ∀ bound ∈ c.clauses, bound.released.admits v = true := by
  rw [admitsReleased, List.all_eq_true]
  constructor
  · exact fun h c hc bound hbound => h bound (mem_clauses.mpr ⟨c, hc, hbound⟩)
  · intro h bound hbound
    obtain ⟨c, hc, hbound⟩ := mem_clauses.mp hbound
    exact h c hc bound hbound

theorem namesPrereleaseOf_of_near (hpre : v.isPrerelease = true)
    (h : g.admitsNearPrerelease v = true) : g.NamesPrereleaseOf v := by
  simp only [admitsNearPrerelease, Bool.and_eq_true, Bool.not_eq_true', List.isEmpty_eq_false_iff,
    List.all_eq_true] at h
  obtain ⟨hne, hall⟩ := h
  obtain ⟨bound, hbound⟩ := List.exists_mem_of_ne_nil _ hne
  obtain ⟨hmem, hnamed⟩ := List.mem_filter.mp hbound
  obtain ⟨c, hc, hmem⟩ := mem_clauses.mp hmem
  exact ⟨c, hc, bound.target, Comparator.operand_of_target hmem hnamed, hnamed,
    Clause.core_of_admits hpre (hall bound hbound).2⟩

theorem namesPrereleaseOf_of_released (hpre : v.isPrerelease = true)
    (h : g.admitsReleased v = true) (hg : g.NamesPrerelease) : g.NamesPrereleaseOf v := by
  obtain ⟨c, hc, w, hw, hnamed⟩ := hg
  obtain ⟨bound, hbound, rfl⟩ := Comparator.exists_bound hw
  have hcore := Clause.core_of_admits hpre (admitsReleased_iff.mp h c hc bound hbound)
  exact ⟨c, hc, bound.target, hw, hnamed, bound.core_released.symm.trans hcore⟩

theorem admits_of_not_namesPrerelease (hg : ¬ g.NamesPrerelease) (v : SemVer) :
    g.admits v = g.admitsReleased v := by
  have hnone : g.clauses.filter (·.target.isPrerelease) = [] := by
    refine List.filter_eq_nil_iff.mpr fun bound hbound hnamed => ?_
    obtain ⟨c, hc, hbound⟩ := mem_clauses.mp hbound
    exact hg ⟨c, hc, bound.target, Comparator.operand_of_target hbound hnamed, hnamed⟩
  rw [admits, admitsNearPrerelease, hnone]
  rfl

/-- A group that names no pre-release admits just those of the release all its bounds stop at. -/
theorem admits_iff_stopsAt (hpre : v.isPrerelease = true) (hg : ¬ g.NamesPrerelease) :
    g.admits v = true ↔ g.StopsAt v := by
  rw [admits_of_not_namesPrerelease hg, admitsReleased_iff]
  exact forall₂_congr fun c hc =>
    Comparator.admits_prerelease_iff hpre fun hnamed => hg ⟨c, hc, hnamed⟩

theorem admits_iff (hpre : v.isPrerelease = true) :
    g.admits v = true ↔ (g.NamesPrereleaseOf v ∧ g.admits v = true) ∨ g.StopsAt v := by
  by_cases hg : g.NamesPrerelease
  · have hstops : ¬ g.StopsAt v := by
      obtain ⟨c, hc, hnamed⟩ := hg
      exact fun hall => Comparator.not_namesPrerelease_of_upperEnd (hall c hc) hnamed
    rw [or_iff_left hstops, iff_and_self]
    intro h
    rcases Bool.or_eq_true _ _ |>.mp h with h | h
    · exact namesPrereleaseOf_of_near hpre h
    · exact namesPrereleaseOf_of_released hpre h hg
  · have hnamed : ¬ g.NamesPrereleaseOf v := by
      rintro ⟨c, hc, w, hw, hpre, _⟩
      exact hg ⟨c, hc, w, hw, hpre⟩
    rw [admits_iff_stopsAt hpre hg, or_iff_right fun h => hnamed h.1]

theorem not_namesPrerelease_of_read {cs : List Char} (h : read cs = .ok g) (hcs : '-' ∉ cs) :
    ¬ g.NamesPrerelease := by
  rintro ⟨c, hc, w, hw, hnamed⟩
  by_cases hne : cs = []
  · subst hne
    cases h
    cases List.mem_singleton.mp hc
    cases hw
  · rw [read_of_no_dash hcs hne] at h
    cases hread : (SemVer.splitAt ' ' cs).mapM readComparator with
    | error fault =>
      rw [hread] at h
      cases h
    | ok comparators =>
      rw [hread] at h
      cases h
      obtain ⟨word, hword, hread⟩ := exists_of_mem_mapM hread hc
      have hdash : '-' ∉ word := fun hmem => hcs (by
        rw [← intercalate_splitAt ' ' cs]
        exact mem_intercalate_of_mem hword hmem)
      obtain ⟨written, hwritten, hof⟩ := Comparator.readComparator_eq_ok.mp hread
      have hnone := Comparator.prerelease_of_ofWritten? hof
        (Comparator.prerelease_of_written? hwritten hdash) hw
      simp [SemVer.isPrerelease, hnone] at hnamed

end Group

/-! ### Constraints -/

namespace Constraint

variable {text : String} {c : Constraint} {u : String}

theorem not_namesPrerelease_of_read (h : read text = .ok c) (htext : '-' ∉ text.toList) :
    ∀ g ∈ c.range.groups, ¬ g.NamesPrerelease := by
  intro g hg
  obtain ⟨piece, hpiece, hread⟩ :=
    exists_of_mem_mapM (Range.read_eq_ok.mp (read_eq_ok.mp h).2.2) hg
  refine Group.not_namesPrerelease_of_read hread fun hdash => ?_
  exact (Range.mem_groupTexts hpiece hdash).elim (by decide) htext

/-- A constraint admits a pre-release in the groups that name one of its triple and admit it, and in
those that stop at its release. If no group names a pre-release only the latter are left, and a
constraint written without dashes names none. -/
theorem prereleases_admitted (hread : read text = .ok c) (hu : SemVer.read? u = some v)
    (hpre : v.isPrerelease = true) :
    (c.admitsText u = true ↔
      ∃ g ∈ c.range.groups, (g.NamesPrereleaseOf v ∧ g.admits v = true) ∨ g.StopsAt v) ∧
    ((∀ g ∈ c.range.groups, ¬ g.NamesPrerelease) →
      (c.admitsText u = true ↔ ∃ g ∈ c.range.groups, g.StopsAt v)) ∧
    ('-' ∉ text.toList → ∀ g ∈ c.range.groups, ¬ g.NamesPrerelease) := by
  have hadmits : c.admitsText u = true ↔ ∃ g ∈ c.range.groups, g.admits v = true := by
    rw [admitsText_iff]
    constructor
    · rintro ⟨w, hw, hg⟩
      rw [hu] at hw
      cases hw
      exact hg
    · exact fun hg => ⟨v, hu, hg⟩
  rw [hadmits]
  refine ⟨?_, fun hnone => ?_, not_namesPrerelease_of_read hread⟩
  · exact exists_congr fun g => and_congr_right fun _ => Group.admits_iff hpre
  · exact exists_congr fun g => and_congr_right fun hg =>
      Group.admits_iff_stopsAt hpre (hnone g hg)

theorem prereleases_admitted_candidates :
    (∃ c, read ">=1.2.0-rc.1 <1.2.1 || 3.x" = .ok c ∧ c.admitsText "v1.2.0-rc.2" = true) ∧
      ∃ c, read "<2.0.0 || ~1.4" = .ok c ∧ c.admitsText "2.0.0-rc.1" = true := by
  constructor
  · have hread : read ">=1.2.0-rc.1 <1.2.1 || 3.x" = .ok ⟨">=1.2.0-rc.1 <1.2.1 || 3.x", ⟨[
        ⟨[⟨.ge, .full
            { major := 1, minor := 2, patch := 0, prerelease := [.word "rc", .numeric 1] }⟩,
          ⟨.lt, .full (.release 1 2 1)⟩]⟩,
        ⟨[⟨.eq, .majorLine 3⟩]⟩]⟩⟩ := by
      decide +kernel
    have hu : SemVer.read? "v1.2.0-rc.2" = some
        { major := 1, minor := 2, patch := 0, prerelease := [.word "rc", .numeric 2] } := by
      decide +kernel
    refine ⟨_, hread, (prereleases_admitted hread hu rfl).1.mpr ⟨_, List.mem_cons_self, .inl ?_⟩⟩
    exact ⟨⟨_, List.mem_cons_self, _, rfl, rfl, rfl⟩, by decide +kernel⟩
  · have hread : read "<2.0.0 || ~1.4" = .ok ⟨"<2.0.0 || ~1.4", ⟨[
        ⟨[⟨.lt, .full (.release 2 0 0)⟩]⟩, ⟨[⟨.tilde, .minorLine 1 4⟩]⟩]⟩⟩ := by
      decide +kernel
    have hu : SemVer.read? "2.0.0-rc.1" = some
        { major := 2, minor := 0, patch := 0, prerelease := [.word "rc", .numeric 1] } := by
      decide +kernel
    obtain ⟨_, hstops, hnamed⟩ := prereleases_admitted hread hu rfl
    refine ⟨_, hread, (hstops (hnamed (by decide))).mpr ⟨_, List.mem_cons_self, ?_⟩⟩
    intro c hc
    cases List.mem_singleton.mp hc
    rfl

/-- A release candidate gets past the upper bound at its release, though nobody named one. -/
theorem candidate_below_release : ∃ c, read "<2.0.0" = .ok c ∧
    c.admitsText "2.0.0-rc.1" = true ∧ ∀ g ∈ c.range.groups, ¬ g.NamesPrerelease := by
  have hread : read "<2.0.0" = .ok ⟨"<2.0.0", ⟨[⟨[⟨.lt, .full (.release 2 0 0)⟩]⟩]⟩⟩ := by
    decide +kernel
  exact ⟨_, hread, by decide +kernel, not_namesPrerelease_of_read hread (by decide)⟩

end Constraint

end ModulePins
