import ModulePins.Proofs.Resolution.Registry
import ModulePins.Proofs.SemVer.Precedence

/-!
# The highest candidate

The highest of some candidates precedes none of them. So, where all tags name releases, a pick stays
the answer when constraints that it satisfies are added to a query: of the tags that are left, it is
still the highest.
-/

namespace ModulePins

theorem Query.admits_of_release {q : Query} {v : SemVer} (hv : v.isPrerelease = false)
    (hadmitted : ∀ text ∈ q.constraints, ∃ c, Constraint.read text = .ok c ∧ c.admits v = true) :
    q.Admits v where
  noted := by
    intro hpre
    simp [hv] at hpre
  admitted := hadmitted

namespace Registry

variable {r : Registry} {q q' : Query} {p : Pick}

/-- A registry whose tags name releases only, and of whose tags no two for a repository have equal
precedence. -/
structure IsRanked (r : Registry) : Prop where
  releases : ∀ url, ∀ tag ∈ r.tagsOf url, ∀ v, SemVer.read? tag = some v → v.isPrerelease = false
  single : ∀ url, ∀ tag ∈ r.tagsOf url, ∀ other ∈ r.tagsOf url, ∀ v w,
    SemVer.read? tag = some v → SemVer.read? other = some w → SemVer.precedence v w = .eq →
      tag = other

theorem isRanked_of_tags
    (hreleases : ∀ entry ∈ r.tags, ∀ tag ∈ entry.2, ∀ v ∈ SemVer.read? tag, v.isPrerelease = false)
    (hsingle : ∀ entry ∈ r.tags, ∀ tag ∈ entry.2, ∀ other ∈ entry.2, ∀ v ∈ SemVer.read? tag,
      ∀ w ∈ SemVer.read? other, SemVer.precedence v w = .eq → tag = other) : r.IsRanked where
  releases := by
    intro url tag htag v hread
    obtain ⟨entry, hentry, hsame⟩ := exists_entry_of_mem_tagsOf htag
    exact hreleases entry hentry tag (hsame ▸ htag) v hread
  single := by
    intro url tag htag other hother v w hread hread' hequal
    obtain ⟨entry, hentry, hsame⟩ := exists_entry_of_mem_tagsOf htag
    rw [hsame] at htag hother
    exact hsingle entry hentry tag htag other hother v hread w hread' hequal

theorem not_precedes_displaces (c d : Candidate) :
    (if displaces d c then d else c).version.precedes c.version = false ∧
      (if displaces d c then d else c).version.precedes d.version = false := by
  by_cases hsame : c.version = d.version
  · split
    · exact ⟨hsame ▸ SemVer.precedes_self _, SemVer.precedes_self _⟩
    · exact ⟨SemVer.precedes_self _, hsame ▸ SemVer.precedes_self _⟩
  · rw [displaces, if_neg hsame]
    split
    · rename_i hlower
      exact ⟨SemVer.not_precedes_of_precedes hlower, SemVer.precedes_self _⟩
    · rename_i hhigher
      exact ⟨SemVer.precedes_self _, by simpa using hhigher⟩

theorem not_precedes_of_highest {candidates : List Candidate} {best : Candidate}
    (h : highest candidates = some best) :
    ∀ c ∈ candidates, best.version.precedes c.version = false := by
  cases candidates with
  | nil => cases h
  | cons first rest =>
    induction rest generalizing first with
    | nil =>
      cases h
      intro c hc
      rw [List.mem_singleton.mp hc]
      exact SemVer.precedes_self _
    | cons d rest ih =>
      obtain ⟨hover, hover'⟩ := not_precedes_displaces first d
      -- The fold goes on with the better of the first two.
      have hall := ih (if displaces d first then d else first) h
      have hlast := hall _ List.mem_cons_self
      intro c hc
      rcases List.mem_cons.mp hc with rfl | hc
      · exact SemVer.not_precedes_trans hlast hover
      · rcases List.mem_cons.mp hc with rfl | hc
        · exact SemVer.not_precedes_trans hlast hover'
        · exact hall c (List.mem_cons_of_mem _ hc)

/-- An immutable pick is the highest candidate, where no branch serves the channel. -/
theorem highest_of_pick (himmutable : p.mutable = false) (h : r.pick q = .ok p) :
    (if q.allowBranches then r.branch? q.url q.channel else none) = none ∧
      ∃ read best, q.constraints.mapM readConstraint = .ok read ∧
        highest (r.candidates q read) = some best ∧ p = { tag := best.tag } := by
  unfold pick at h
  split at h
  · cases h
    cases himmutable
  · rename_i hbranch
    refine ⟨hbranch, ?_⟩
    cases hread : q.constraints.mapM readConstraint with
    | error failure => simp [hread, bind, Except.bind] at h
    | ok read =>
      simp only [hread, bind, Except.bind] at h
      split at h
      · rename_i best hbest
        cases h
        exact ⟨read, best, rfl, hbest, rfl⟩
      · cases h

theorem mutable_of_pick (hallow : q.allowBranches = true) (h : r.pick q = .ok p) :
    p.mutable = (r.branch? q.url q.channel).isSome := by
  rcases pick_ok h with ⟨hmutable, _, hbranch⟩ | ⟨himmutable, _⟩
  · rw [hmutable, hbranch, Option.isSome_some]
  · obtain ⟨hnone, _⟩ := highest_of_pick himmutable h
    rw [if_pos hallow] at hnone
    rw [himmutable, hnone, Option.isSome_none]

/-- A pick stays the answer when constraints are added that it satisfies. -/
theorem pick_of_tighter (hr : r.IsRanked) (hurl : q'.url = q.url)
    (hchannel : q'.channel = q.channel) (hallow : q'.allowBranches = q.allowBranches)
    (hmore : ∀ text ∈ q.constraints, text ∈ q'.constraints) (himmutable : p.mutable = false)
    (hsatisfied : ∀ text ∈ q'.constraints, Satisfies p.tag text) (h : r.pick q = .ok p) :
    r.pick q' = .ok p := by
  obtain ⟨hbranch, read, best, hread, hbest, rfl⟩ := highest_of_pick himmutable h
  have hreleases : ∀ c : Candidate, c.tag ∈ r.tagsOf q.url → SemVer.read? c.tag = some c.version →
      c.version.isPrerelease = false :=
    fun c htag hversion => hr.releases q.url c.tag htag c.version hversion
  obtain ⟨htag, hversion, _⟩ := (mem_candidates hread best).mp (mem_of_highest hbest)
  obtain ⟨read', hread'⟩ := exists_mapM_readConstraint.mpr fun text ht =>
    (hsatisfied text ht).imp fun _ hc => hc.1
  -- The pick is still a candidate.
  have hstill : best ∈ r.candidates q' read' := by
    refine (mem_candidates hread' best).mpr ⟨hurl ▸ htag, hversion, ?_⟩
    refine Query.admits_of_release (hreleases best htag hversion) ?_
    intro text ht
    obtain ⟨c, hc, hadmits⟩ := hsatisfied text ht
    exact ⟨c, hc, by simpa [Constraint.admitsText, hversion] using hadmits⟩
  obtain ⟨best', hbest'⟩ := exists_highest hstill
  obtain ⟨htag', hversion', hadmits'⟩ := (mem_candidates hread' best').mp (mem_of_highest hbest')
  rw [hurl] at htag'
  -- What is picked instead was a candidate before.
  have hbefore : best' ∈ r.candidates q read := by
    refine (mem_candidates hread best').mpr ⟨htag', hversion', ?_⟩
    exact Query.admits_of_release (hreleases best' htag' hversion') fun text ht =>
      hadmits'.admitted text (hmore text ht)
  have hequal := SemVer.precedence_eq_of_not_precedes (not_precedes_of_highest hbest best' hbefore)
    (not_precedes_of_highest hbest' best hstill)
  have hsame := hr.single q.url best.tag htag best'.tag htag' _ _ hversion hversion' hequal
  rw [hsame]
  exact pick_of_highest (by rw [hallow, hurl, hchannel, hbranch]) hread' hbest'

theorem source_of_tighter {failing : Option Failure} {asked asked' : List Query} (hr : r.IsRanked)
    (hurl : q'.url = q.url) (hchannel : q'.channel = q.channel)
    (hallow : q'.allowBranches = q.allowBranches)
    (hmore : ∀ text ∈ q.constraints, text ∈ q'.constraints) (himmutable : p.mutable = false)
    (hsatisfied : ∀ text ∈ q'.constraints, Satisfies p.tag text)
    (h : r.source failing asked q = .ok p) : r.source failing asked' q' = .ok p := by
  cases failing with
  | some failure => cases h
  | none => exact pick_of_tighter hr hurl hchannel hallow hmore himmutable hsatisfied h

end Registry

end ModulePins
