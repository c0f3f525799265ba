import ModulePins.Proofs.Resolution.Highest

/-!
# What a registry picks

Where a branch serves the channel, and may, it is picked. Otherwise a tag is picked that the query
admits and that none of the admitted tags outranks; only if there is no such tag, no version is
found. Further constraints never lead to a higher pick, unless there were none before: the first one
lets pre-releases in.
-/

namespace ModulePins

namespace Registry

variable {r : Registry} {q : Query}

/-- The branch that answers a query, whatever its constraints. -/
def serving? (r : Registry) (q : Query) : Option String :=
  if q.allowBranches then r.branch? q.url q.channel else none

/-- A listed tag that names a version which the query admits. -/
structure Eligible (r : Registry) (q : Query) (tag : String) (v : SemVer) : Prop where
  listed : tag ∈ r.tagsOf q.url
  named : SemVer.read? tag = some v
  admitted : q.Admits v

/-- A tag that may be picked and that no other such tag outranks. -/
structure Foremost (r : Registry) (q : Query) (tag : String) (v : SemVer) : Prop
    extends Eligible r q tag v where
  unsurpassed : ∀ other w, r.Eligible q other w → v.precedes w = false

def notFound (q : Query) : Failure :=
  .versionNotFound ("no version found matching criteria for " ++ q.url)

theorem serving?_eq_some {name : String} :
    r.serving? q = some name ↔
      q.allowBranches = true ∧ r.branch? q.url q.channel = some name := by
  unfold serving?
  split
  · rename_i hallow
    simp [hallow]
  · rename_i hforbid
    simp [hforbid]

theorem pick_of_serving {name : String} (h : r.serving? q = some name) :
    r.pick q = .ok { tag := name, mutable := true } := by
  rw [serving?] at h
  simp only [pick, h]

section Unserved

variable {read : List Constraint} (hread : q.constraints.mapM readConstraint = .ok read)
include hread

theorem mem_candidates_iff {tag : String} {v : SemVer} :
    ⟨v, tag⟩ ∈ r.candidates q read ↔ r.Eligible q tag v := by
  rw [mem_candidates hread]
  exact ⟨fun ⟨hlisted, hnamed, hadmitted⟩ => ⟨hlisted, hnamed, hadmitted⟩,
    fun h => ⟨h.listed, h.named, h.admitted⟩⟩

variable (hserving : r.serving? q = none)
include hserving

theorem foremost_of_highest {best : Candidate} (hbest : highest (r.candidates q read) = some best) :
    r.pick q = .ok { tag := best.tag } ∧ r.Foremost q best.tag best.version := by
  refine ⟨pick_of_highest hserving hread hbest,
    (mem_candidates_iff hread).mp (mem_of_highest hbest), ?_⟩
  intro other w heligible
  exact not_precedes_of_highest hbest ⟨w, other⟩ ((mem_candidates_iff hread).mpr heligible)

theorem pick_of_no_candidate (hnone : highest (r.candidates q read) = none) :
    r.pick q = .error (notFound q) ∧ ∀ tag v, ¬r.Eligible q tag v := by
  constructor
  · rw [serving?] at hserving
    simp only [pick, hserving, hread, hnone, bind, Except.bind, notFound]
  · intro tag v heligible
    obtain ⟨best, hbest⟩ := exists_highest ((mem_candidates_iff hread).mpr heligible)
    rw [hnone] at hbest
    cases hbest

end Unserved

/-- What a query comes to: a branch, a foremost tag, or no version. -/
theorem pick_cases (hreads : ∀ text ∈ q.constraints, ∃ c, Constraint.read text = .ok c) :
    (∃ name, r.serving? q = some name ∧ r.pick q = .ok { tag := name, mutable := true }) ∨
      r.serving? q = none ∧
        ((∃ tag v, r.pick q = .ok { tag } ∧ r.Foremost q tag v) ∨
          r.pick q = .error (notFound q) ∧ ∀ tag v, ¬r.Eligible q tag v) := by
  cases hserving : r.serving? q with
  | some name => exact .inl ⟨name, rfl, pick_of_serving hserving⟩
  | none =>
    refine .inr ⟨rfl, ?_⟩
    obtain ⟨read, hread⟩ := exists_mapM_readConstraint.mpr hreads
    cases hhighest : highest (r.candidates q read) with
    | some best =>
      exact .inl ⟨best.tag, best.version, foremost_of_highest hread hserving hhighest⟩
    | none => exact .inr (pick_of_no_candidate hread hserving hhighest)

/-- With further constraints fewer tags are eligible, unless there were none before. -/
theorem Eligible.of_more {more : List String} (hsome : q.constraints ≠ [])
    (hmore : q.constraints ⊆ more) {tag : String} {v : SemVer}
    (h : r.Eligible { q with constraints := more } tag v) : r.Eligible q tag v where
  listed := h.listed
  named := h.named
  admitted :=
    { noted := fun _ _ => hsome
      admitted := fun text htext => h.admitted.admitted text (hmore htext) }

/-- If a tag is picked under further constraints, the pick without them is no lower. -/
theorem pick_of_fewer (hserving : r.serving? q = none)
    (hreads : ∀ text ∈ q.constraints, ∃ c, Constraint.read text = .ok c)
    (hsome : q.constraints ≠ []) {more : List String} (hmore : q.constraints ⊆ more) {p : Pick}
    (hp : r.pick { q with constraints := more } = .ok p) :
    ∃ tag v w, r.pick q = .ok { tag } ∧ SemVer.read? tag = some v ∧
      SemVer.read? p.tag = some w ∧ v.precedes w = false := by
  have htagged : ∃ w, r.Eligible { q with constraints := more } p.tag w := by
    rcases pick_ok hp with ⟨_, hallow, hbranch⟩ | ⟨_, hlisted, w, hnamed, hadmitted⟩
    · have hserved : r.serving? q = some p.tag := serving?_eq_some.mpr ⟨hallow, hbranch⟩
      rw [hserving] at hserved
      cases hserved
    · exact ⟨w, hlisted, hnamed, hadmitted⟩
  obtain ⟨w, hw⟩ := htagged
  have hbefore := hw.of_more hsome hmore
  rcases pick_cases (r := r) hreads with ⟨_, hname, _⟩ | ⟨_, ⟨tag, v, hpick, hv⟩ | ⟨_, hnone⟩⟩
  · rw [hserving] at hname
    cases hname
  · exact ⟨tag, v, w, hpick, hv.named, hw.named, hv.unsurpassed p.tag w hbefore⟩
  · exact absurd hbefore (hnone p.tag w)

/-- A registry answers with the branch for the channel, if there is one that may be used. Else it
fails exactly if no tag is eligible, always in the same way, and otherwise answers with a foremost
tag. Further constraints never raise the answer. -/
theorem pick_lawful (r : Registry) (q : Query)
    (hreads : ∀ text ∈ q.constraints, ∃ c, Constraint.read text = .ok c) :
    (∀ name, r.pick q = .ok { tag := name, mutable := true } ↔
        q.allowBranches = true ∧ r.branch? q.url q.channel = some name) ∧
      (∀ failure, r.pick q = .error failure ↔
        failure = notFound q ∧ r.serving? q = none ∧ ∀ tag v, ¬r.Eligible q tag v) ∧
      (r.serving? q = none → ∀ tag v, r.Eligible q tag v →
        ∃ best w, r.pick q = .ok { tag := best } ∧ r.Foremost q best w) ∧
      (r.serving? q = none → q.constraints ≠ [] → ∀ more, q.constraints ⊆ more →
        ∀ p, r.pick { q with constraints := more } = .ok p →
          ∃ tag v w, r.pick q = .ok { tag } ∧ SemVer.read? tag = some v ∧
            SemVer.read? p.tag = some w ∧ v.precedes w = false) := by
  refine ⟨fun name => ?_, fun failure => ?_, fun hserving tag v heligible => ?_,
    fun hserving hsome more hmore p hp => pick_of_fewer hserving hreads hsome hmore hp⟩
  · rw [← serving?_eq_some]
    rcases pick_cases (r := r) hreads with ⟨_, hserving, hpick⟩ |
      ⟨hserving, ⟨_, _, hpick, _⟩ | ⟨hpick, _⟩⟩
    · simp [hserving, hpick]
    · simp [hserving, hpick]
    · simp [hserving, hpick]
  · rcases pick_cases (r := r) hreads with ⟨_, hserving, hpick⟩ |
      ⟨hserving, ⟨tag, v, hpick, hforemost⟩ | ⟨hpick, hnone⟩⟩
    · simp [hserving, hpick]
    · simp only [hpick, reduceCtorEq, false_iff]
      rintro ⟨_, _, hnone⟩
      exact hnone tag v hforemost.toEligible
    · rw [hpick, Except.error.injEq, eq_comm]
      exact ⟨fun h => ⟨h, hserving, hnone⟩, And.left⟩
  · rcases pick_cases (r := r) hreads with ⟨_, hname, _⟩ | ⟨_, hbest | ⟨_, hnone⟩⟩
    · rw [hserving] at hname
      cases hname
    · exact hbest
    · exact absurd heligible (hnone tag v)

/-- Tags that name one version in several ways, one that names none, a pre-release, and a branch. -/
def mixedRegistry : Registry where
  tags := [("https://a",
    ["nightly", "v1.2.0+b", "1.0.0", "1.3.0-rc.2", "1.2.0", "1.0.0", "v1.2.0+a"])]
  branches := [{ url := "https://a", channel := "dev", name := "main" }]

/-- Versions that differ in their builds only are neither equal nor ordered, so the first one stays.
A constraint that leaves it out leads down to an earlier release. -/
theorem pick_lawful_mixed :
    (∃ w, mixedRegistry.pick { url := "https://a", constraints := ["^1.0.0"] } =
        .ok { tag := "v1.2.0+b" } ∧
      mixedRegistry.Foremost { url := "https://a", constraints := ["^1.0.0"] } "v1.2.0+b" w) ∧
      ∃ v w, mixedRegistry.pick { url := "https://a", constraints := ["^1.0.0", "<1.2.0"] } =
          .ok { tag := "1.0.0" } ∧
        SemVer.read? "v1.2.0+b" = some v ∧ SemVer.read? "1.0.0" = some w ∧
          v.precedes w = false := by
  have hread : Constraint.read "^1.0.0" = .ok ⟨"^1.0.0", ⟨[⟨[⟨.caret, .full (.release 1 0 0)⟩]⟩]⟩⟩ :=
    rfl
  have heligible : mixedRegistry.Eligible { url := "https://a", constraints := ["^1.0.0"] } "1.0.0"
      (.release 1 0 0) :=
    { listed := by decide +kernel
      named := by decide +kernel
      admitted := Query.admits_of_release rfl (by simpa using ⟨_, hread, by decide +kernel⟩) }
  have hpicked : (mixedRegistry.pick { url := "https://a", constraints := ["^1.0.0"] }).toOption =
      some { tag := "v1.2.0+b" } := by decide +kernel
  have hlowered : (mixedRegistry.pick
      { url := "https://a", constraints := ["^1.0.0", "<1.2.0"] }).toOption =
      some { tag := "1.0.0" } := by decide +kernel
  obtain ⟨_, _, hforemost, hlower⟩ := pick_lawful mixedRegistry
    { url := "https://a", constraints := ["^1.0.0"] } (by simpa using ⟨_, hread⟩)
  constructor
  · obtain ⟨best, w, hpick, hbest⟩ := hforemost rfl _ _ heligible
    rw [hpick] at hpicked
    cases hpicked
    exact ⟨w, hpick, hbest⟩
  · cases hlow : mixedRegistry.pick { url := "https://a", constraints := ["^1.0.0", "<1.2.0"] } with
    | error _ => simp [hlow, Except.toOption] at hlowered
    | ok p =>
      obtain ⟨tag, v, w, hpick, hv, hw, hover⟩ := hlower rfl (by simp) _ (by simp) p hlow
      rw [hpick] at hpicked
      cases hpicked
      have htag : p = { tag := "1.0.0" } := by simpa [hlow, Except.toOption] using hlowered
      subst htag
      exact ⟨v, w, rfl, hv, hw, hover⟩

end Registry

end ModulePins
