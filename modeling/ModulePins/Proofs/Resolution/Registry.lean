import ModulePins.Proofs.Sequence
import ModulePins.Resolution.InMemory

/-!
# What a registry answers

The answer to a query is the branch for its channel, or the highest of the tags whose versions the
query admits. It depends on which constraints are listed, not on their order or number.
-/

namespace ModulePins

/-- Whether a version as text satisfies a constraint as text. -/
def Satisfies (tag text : String) : Prop :=
  ∃ c, Constraint.read text = .ok c ∧ c.admitsText tag = true

/-- Whether a query may be answered with a version. -/
structure Query.Admits (q : Query) (v : SemVer) : Prop where
  noted : v.isPrerelease = true → q.channel = "" → q.constraints ≠ []
  admitted : ∀ text ∈ q.constraints, ∃ c, Constraint.read text = .ok c ∧ c.admits v = true

/-- A source that picks only what satisfies all constraints, branches apart. -/
def VersionSource.Honours (source : VersionSource) : Prop :=
  ∀ asked query pick, source asked query = .ok pick → pick.mutable = false →
    ∀ text ∈ query.constraints, Satisfies pick.tag text

/-- A source that answers a query in the same way at any time. -/
def VersionSource.Stateless (source : VersionSource) : Prop :=
  ∀ asked query, source asked query = source [] query

/-- A source whose picks have tags. -/
def VersionSource.Tagged (source : VersionSource) : Prop :=
  ∀ asked query pick, source asked query = .ok pick → pick.tag ≠ ""

namespace Registry

theorem exists_entry_of_mem_tagsOf {r : Registry} {url tag : String} (h : tag ∈ r.tagsOf url) :
    ∃ entry ∈ r.tags, r.tagsOf url = entry.2 := by
  unfold tagsOf at h ⊢
  cases hfound : r.tags.lookup url with
  | none => simp [hfound] at h
  | some tags =>
    obtain ⟨before, after, hsplit, _⟩ := List.lookup_eq_some_iff.mp hfound
    exact ⟨(url, tags), by simp [hsplit], rfl⟩

variable {q : Query}

theorem readConstraint_ok {text : String} {c : Constraint} :
    readConstraint text = .ok c ↔ Constraint.read text = .ok c := by
  unfold readConstraint
  split
  · rename_i c' hread
    rw [hread, Except.ok.injEq, Except.ok.injEq]
  · rename_i hread
    simp [hread]
  · rename_i hread
    simp [hread]

theorem exists_mapM_readConstraint {texts : List String} :
    (∃ read, texts.mapM readConstraint = .ok read) ↔
      ∀ text ∈ texts, ∃ c, Constraint.read text = .ok c := by
  simp only [Sequence.exists_mapM_eq_ok, readConstraint_ok]

theorem all_admits_of_mapM {texts : List String} {read : List Constraint}
    (h : texts.mapM readConstraint = .ok read) (v : SemVer) :
    read.all (·.admits v) = true ↔
      ∀ text ∈ texts, ∃ c, Constraint.read text = .ok c ∧ c.admits v = true := by
  induction texts generalizing read with
  | nil =>
    cases h
    simp
  | cons text texts ih =>
    obtain ⟨c, rest, hc, hrest, rfl⟩ := Sequence.mapM_cons_eq_ok.mp h
    rw [readConstraint_ok] at hc
    simp only [List.all_cons, Bool.and_eq_true, ih hrest, List.forall_mem_cons, hc,
      Except.ok.injEq, exists_eq_left']

theorem isEligible_iff {read : List Constraint} (h : q.constraints.mapM readConstraint = .ok read)
    (v : SemVer) : isEligible q read v = true ↔ q.Admits v := by
  have hempty : read = [] ↔ q.constraints = [] := by
    cases hq : q.constraints with
    | nil =>
      rw [hq] at h
      cases h
      simp
    | cons text texts =>
      rw [hq] at h
      obtain ⟨c, rest, _, _, rfl⟩ := Sequence.mapM_cons_eq_ok.mp h
      simp
  simp only [isEligible, Bool.and_eq_true, all_admits_of_mapM h]
  constructor
  · rintro ⟨hnoted, hadmitted⟩
    refine ⟨?_, hadmitted⟩
    intro hpre hchannel hnil
    simp [hpre, hchannel, hempty.mpr hnil] at hnoted
  · rintro ⟨hnoted, hadmitted⟩
    refine ⟨?_, hadmitted⟩
    by_cases hpre : v.isPrerelease = true
    · by_cases hchannel : q.channel = ""
      · have hne : read ≠ [] := fun hnil => hnoted hpre hchannel (hempty.mp hnil)
        simp [hne]
      · simp [hchannel]
    · simp [hpre]

theorem mem_candidates {r : Registry} {read : List Constraint}
    (h : q.constraints.mapM readConstraint = .ok read) (c : Candidate) :
    c ∈ r.candidates q read ↔
      c.tag ∈ r.tagsOf q.url ∧ SemVer.read? c.tag = some c.version ∧ q.Admits c.version := by
  simp only [candidates, List.mem_filterMap]
  constructor
  · rintro ⟨tag, htag, hcandidate⟩
    split at hcandidate
    · rename_i v hread
      split at hcandidate
      · rename_i heligible
        cases hcandidate
        exact ⟨htag, hread, (isEligible_iff h v).mp heligible⟩
      · cases hcandidate
    · cases hcandidate
  · rintro ⟨htag, hread, hadmits⟩
    exact ⟨c.tag, htag, by simp [hread, (isEligible_iff h c.version).mpr hadmits]⟩

theorem mem_of_highest {candidates : List Candidate} {best : Candidate}
    (h : highest candidates = some best) : best ∈ candidates := by
  cases candidates with
  | nil => cases h
  | cons first rest =>
    rw [highest, Option.some.injEq] at h
    subst h
    induction rest generalizing first with
    | nil => simp
    | cons d rest ih =>
      rw [List.foldl_cons]
      split
      · exact List.mem_cons_of_mem _ (ih d)
      · rcases List.mem_cons.mp (ih first) with hfirst | hrest
        · rw [hfirst]
          exact List.mem_cons_self
        · exact List.mem_cons_of_mem _ (List.mem_cons_of_mem _ hrest)

theorem exists_highest {candidates : List Candidate} {c : Candidate} (h : c ∈ candidates) :
    ∃ best, highest candidates = some best := by
  cases candidates with
  | nil => cases h
  | cons first rest => exact ⟨_, rfl⟩

theorem pick_of_highest {r : Registry} {read : List Constraint} {best : Candidate}
    (hbranch : (if q.allowBranches then r.branch? q.url q.channel else none) = none)
    (hread : q.constraints.mapM readConstraint = .ok read)
    (hbest : highest (r.candidates q read) = some best) : r.pick q = .ok { tag := best.tag } := by
  simp [pick, hbranch, hread, bind, Except.bind, hbest, pure, Except.pure]

/-- Without branches a pick comes about whenever the query admits the version of a tag. -/
theorem exists_pick {r : Registry} {tag : String} {v : SemVer} (hbranches : r.branches = [])
    (htag : tag ∈ r.tagsOf q.url) (hread : SemVer.read? tag = some v) (hadmits : q.Admits v) :
    ∃ p, r.pick q = .ok p := by
  have hnone : (if q.allowBranches then r.branch? q.url q.channel else none) = none := by
    simp [branch?, hbranches]
  obtain ⟨read, hconstraints⟩ := exists_mapM_readConstraint.mpr fun text ht =>
    (hadmits.admitted text ht).imp fun _ hc => hc.1
  have hmem := (mem_candidates (r := r) hconstraints ⟨v, tag⟩).mpr ⟨htag, hread, hadmits⟩
  obtain ⟨best, hbest⟩ := exists_highest hmem
  exact ⟨{ tag := best.tag }, pick_of_highest hnone hconstraints hbest⟩

theorem pick_ok {r : Registry} {p : Pick} (h : r.pick q = .ok p) :
    (p.mutable = true ∧ q.allowBranches = true ∧ r.branch? q.url q.channel = some p.tag) ∨
      (p.mutable = false ∧ p.tag ∈ r.tagsOf q.url ∧
        ∃ v, SemVer.read? p.tag = some v ∧ q.Admits v) := by
  unfold pick at h
  split at h
  · rename_i name hbranch
    split at hbranch
    · rename_i hallow
      cases h
      exact .inl ⟨rfl, hallow, hbranch⟩
    · cases hbranch
  · right
    cases hread : q.constraints.mapM readConstraint with
    | error failure => simp [hread, bind, Except.bind] at h
    | ok read =>
      simp only [hread, bind, Except.bind] at h
      split at h
      · rename_i best hbest
        cases h
        obtain ⟨htag, hversion, hadmits⟩ := (mem_candidates hread best).mp (mem_of_highest hbest)
        exact ⟨rfl, htag, best.version, hversion, hadmits⟩
      · cases h

/-- Picks depend on which constraints are listed, not on their order or number. -/
theorem pick_congr {r : Registry} {q' : Query} {p : Pick} (hurl : q'.url = q.url)
    (hchannel : q'.channel = q.channel) (hallow : q'.allowBranches = q.allowBranches)
    (hconstraints : ∀ text, text ∈ q'.constraints ↔ text ∈ q.constraints)
    (h : r.pick q = .ok p) : r.pick q' = .ok p := by
  unfold pick at h ⊢
  rw [hurl, hchannel, hallow]
  split at h
  · rename_i name hbranch
    simpa [hbranch] using h
  · rename_i hbranch
    cases hread : q.constraints.mapM readConstraint with
    | error failure => simp [hread, bind, Except.bind] at h
    | ok read =>
      obtain ⟨read', hread'⟩ : ∃ read', q'.constraints.mapM readConstraint = .ok read' := by
        apply exists_mapM_readConstraint.mpr
        intro text htext
        exact exists_mapM_readConstraint.mp ⟨read, hread⟩ text ((hconstraints text).mp htext)
      have hempty : q'.constraints = [] ↔ q.constraints = [] := by
        simp only [List.eq_nil_iff_forall_not_mem, hconstraints]
      have hadmits : ∀ v, q'.Admits v ↔ q.Admits v := by
        intro v
        constructor
        · rintro ⟨hnoted, hadmitted⟩
          exact ⟨fun hp hc hn => hnoted hp (hchannel.trans hc) (hempty.mpr hn),
            fun text ht => hadmitted text ((hconstraints text).mpr ht)⟩
        · rintro ⟨hnoted, hadmitted⟩
          exact ⟨fun hp hc hn => hnoted hp (hchannel.symm.trans hc) (hempty.mp hn),
            fun text ht => hadmitted text ((hconstraints text).mp ht)⟩
      have heligible : ∀ v, isEligible q' read' v = isEligible q read v := by
        intro v
        rw [Bool.eq_iff_iff, isEligible_iff hread', isEligible_iff hread, hadmits]
      have hcandidates : r.candidates q' read' = r.candidates q read := by
        simp only [candidates, hurl, heligible]
      simp only [hread, bind, Except.bind] at h
      simp only [hread', bind, Except.bind, hcandidates]
      exact h

theorem stateless (r : Registry) (failing : Option Failure) : (r.source failing).Stateless :=
  fun _ _ => rfl

theorem pick_of_source {r : Registry} {failing : Option Failure} {asked : List Query} {p : Pick}
    (h : r.source failing asked q = .ok p) : r.pick q = .ok p := by
  cases failing with
  | some failure => cases h
  | none => exact h

theorem honours (r : Registry) (failing : Option Failure) : (r.source failing).Honours := by
  intro asked query p hp himmutable text htext
  rcases pick_ok (pick_of_source hp) with ⟨hmutable, _⟩ | ⟨_, _, v, hread, hadmits⟩
  · simp [himmutable] at hmutable
  · obtain ⟨c, hc, hv⟩ := hadmits.admitted text htext
    exact ⟨c, hc, by simp [Constraint.admitsText, hread, hv]⟩

/-- A pick that is no branch is a version, and so has a tag. -/
theorem tag_ne_empty {r : Registry} {p : Pick} (himmutable : p.mutable = false)
    (h : r.pick q = .ok p) : p.tag ≠ "" := by
  intro htag
  rcases pick_ok h with ⟨hmutable, _⟩ | ⟨_, _, v, hread, _⟩
  · simp [himmutable] at hmutable
  · have hnone : SemVer.read? "" = none := by decide +kernel
    rw [htag, hnone] at hread
    cases hread

theorem tagged {r : Registry} (hbranches : r.branches = []) (failing : Option Failure) :
    (r.source failing).Tagged := by
  intro asked query p hp
  have hpick := pick_of_source hp
  rcases pick_ok hpick with ⟨_, _, hbranch⟩ | ⟨himmutable, _⟩
  · simp [branch?, hbranches] at hbranch
  · exact tag_ne_empty himmutable hpick

end Registry

end ModulePins
