import ModulePins.Proofs.Resolution.Constraints
import ModulePins.Proofs.Resolution.Ending
import ModulePins.Proofs.Resolution.Lockstep

/-!
# Turns

What one step leaves behind, whether it fails or not. A transition tells of a failure only why it
came about; a turn tells in addition which state the run is left in. It asks the version source at
most once and the manifest store at most once, and touches the history of one module at most.
-/

namespace ModulePins

namespace Run

variable {s t : Surroundings} {r r' start : Run}

/-- Why no pick comes about for an item, with the failure and all queries made by then. -/
inductive Refused (s : Surroundings) (cache : Cache) (asked : List Query) (item : Item)
    (uri : String) (before : Option Pick) (history : History) : Failure → List Query → Prop
  | conflict {pinned : Demand} (hpinned : history.pinning? = some pinned)
      (hoff : Demand.isOffStable item.channel = true) (hother : item.channel ≠ pinned.channel) :
      Refused s cache asked item uri before history
        (.channelConflict item.name pinned.channel pinned.parent item.channel item.task.parent
          history)
        asked
  | unread {failure : Failure} (hbefore : ∀ p, before = some p → p.mutable = false)
      (hremote : Location.isLocal uri = false)
      (hget : (cache.get s.now uri history.channel).outcome = .error failure) :
      Refused s cache asked item uri before history (cacheFailure item.name failure) asked
  | unanswered {failure : Failure} (hbefore : ∀ p, before = some p → p.mutable = false)
      (hremote : Location.isLocal uri = false)
      (hanswer : s.versions asked (history.query uri) = .error failure) :
      Refused s cache asked item uri before history (versionFailure item.name history failure)
        (asked ++ [history.query uri])
  | unwritten {fault : FileFault} (hbefore : ∀ p, before = some p → p.mutable = false)
      (hremote : Location.isLocal uri = false) :
      Refused s cache asked item uri before history
        (.collaborator item.name "cache resolved version" fault.message)
        (asked ++ [history.query uri])

/-- Why there is no manifest for a module, with the failure. -/
inductive Unfetched (s : Surroundings) (fetches : List Fetch) (m : PinnedModule) : Failure → Prop
  | unserved {failure : Failure} (h : (s.manifests fetches m.fetch).outcome = .error failure) :
      Unfetched s fetches m (fetchFailure m.name failure)
  | misnamed {manifest : ModuleManifest}
      (h : (s.manifests fetches m.fetch).outcome = .ok manifest) (hname : manifest.name ≠ m.name) :
      Unfetched s fetches m (.manifest (.wrongName manifest.name m.name))

/-- What becomes of a run in which a module is expanded. -/
inductive Expansion (s : Surroundings) (r : Run) (m : PinnedModule) : Run → Prop
  | known (hknown : (r.agenda.find? m.name).bind Entry.expanded = some m) : Expansion s r m r
  | failed {failure : Failure} {notices : List Notice}
      (hnew : (r.agenda.find? m.name).bind Entry.expanded ≠ some m)
      (hunfetched : Unfetched s r.fetches m failure) :
      Expansion s r m
        { r.marked m with fetches := r.fetches ++ [m.fetch], notices, failure := some failure }
  | fetched {manifest : ModuleManifest} {notices : List Notice}
      (hnew : (r.agenda.find? m.name).bind Entry.expanded ≠ some m)
      (hserved : (s.manifests r.fetches m.fetch).outcome = .ok manifest)
      (hname : manifest.name = m.name) :
      Expansion s r m
        { r.marked m with
          fetches := r.fetches ++ [m.fetch], notices
          manifests := r.manifests.put m.name manifest
          agenda :=
            { (r.marked m).agenda with tasks := r.agenda.tasks ++ manifest.tasks m } }

/-- What one step leaves behind. -/
inductive Turn (s : Surroundings) (r : Run) : Run → Prop
  | lost {task : Task} {rest : List Task} {fault : RangeFault}
      (htasks : r.agenda.tasks = task :: rest)
      (hbroken : Agenda.demand task = .error fault) :
      Turn s r { r with agenda := { r.agenda with tasks := rest }, workers := r.workers - 1 }
  | given {task : Task} {rest : List Task} {d : Demand} {entry : Entry} {m : PinnedModule} {r' : Run}
      (htasks : r.agenda.tasks = task :: rest) (hdemand : Agenda.demand task = .ok d)
      (hfind : r.agenda.find? m.name = some entry) (hgiven : entry.given = true)
      (hchosen : entry.chosen = some m) (hname : m.name = task.requirement.name)
      (h : Expansion s { r with agenda := { r.agenda with tasks := rest }.meet m.name } m r') :
      Turn s r r'
  | refused {task : Task} {rest : List Task} {d : Demand} {before : Entry} {failure : Failure}
      {queries : List Query} {notices : List Notice} (htaken : Taken r task rest d before)
      (hrefused : Refused s r.cache r.queries (r.itemOf task d)
        (r.agenda.uriOf task.requirement.name) before.pick (before.history ++ [d]) failure queries) :
      Turn s r { r.noting task rest d with queries, notices, failure := some failure }
  | picked {task : Task} {rest : List Task} {d : Demand} {before : Entry} {pick : Pick}
      {cache : Cache} {queries : List Query} {notices : List Notice} {m : PinnedModule} {r' : Run}
      (htaken : Taken r task rest d before)
      (hshape : m = pick.pinned task.requirement.name (r.agenda.uriOf task.requirement.name))
      (hpicked : Picked s r.cache r.queries (r.agenda.uriOf task.requirement.name) before.pick
        (before.history ++ [d]) pick cache queries)
      (h : Expansion s
        ({ r.noting task rest d with cache, queries, notices }.withChosen m pick) m r') :
      Turn s r r'

section Expansion

variable {m : PinnedModule}

theorem Expansion.find? (h : Expansion s r m r') (name : String) :
    r'.agenda.find? name = r.agenda.find? name ∨
      name = m.name ∧ r'.agenda.find? name =
        some { (r.agenda.find? name).getD {} with expanded := some m } := by
  have hmarked : (r.marked m).agenda.find? name =
      if name = m.name then some { (r.agenda.find? m.name).getD {} with expanded := some m }
      else r.agenda.find? name := Agenda.find?_update _ _ _ _
  by_cases hname : name = m.name
  · subst hname
    rw [if_pos rfl] at hmarked
    cases h with
    | known _ => exact .inl rfl
    | failed _ _ => exact .inr ⟨rfl, hmarked⟩
    | fetched _ _ _ => exact .inr ⟨rfl, hmarked⟩
  · rw [if_neg hname] at hmarked
    left
    cases h with
    | known _ => rfl
    | failed _ _ => exact hmarked
    | fetched _ _ _ => exact hmarked

theorem Expansion.find?_self (h : Expansion s r m r') {e : Entry}
    (hfind : r.agenda.find? m.name = some e) :
    r'.agenda.find? m.name = some { e with expanded := some m } := by
  have hmarked : (r.marked m).agenda.find? m.name = some { e with expanded := some m } := by
    simp [marked, hfind]
  cases h with
  | known hknown =>
    rw [hfind, Option.bind_some] at hknown
    rw [hfind, ← hknown]
  | failed _ _ => exact hmarked
  | fetched _ _ _ => exact hmarked

theorem Expansion.history (h : Expansion s r m r') (name : String) :
    r'.agenda.history name = r.agenda.history name := by
  rw [Agenda.history, Agenda.history]
  rcases h.find? name with hfind | ⟨_, hfind⟩
  · rw [hfind]
  · rw [hfind]
    cases r.agenda.find? name <;> rfl

theorem Expansion.cache (h : Expansion s r m r') : r'.cache = r.cache := by
  cases h <;> rfl

theorem Expansion.queries (h : Expansion s r m r') : r'.queries = r.queries := by
  cases h <;> rfl

theorem Expansion.replacements (h : Expansion s r m r') :
    r'.agenda.replacements = r.agenda.replacements := by
  cases h <;> rfl

theorem Expansion.fetches (h : Expansion s r m r') : r.fetches <+: r'.fetches := by
  cases h with
  | known _ => exact List.prefix_rfl
  | failed _ _ => exact List.prefix_append _ _
  | fetched _ _ _ => exact List.prefix_append _ _

end Expansion

section Refused

variable {item : Item} {uri : String} {before : Option Pick} {history : History} {failure : Failure}

theorem askVersion_refused (hbefore : ∀ p, before = some p → p.mutable = false)
    (hremote : Location.isLocal uri = false)
    (h : askVersion s r item.name uri history = (r', .error failure)) :
    ∃ queries, r' = { r with queries } ∧
      Refused s r.cache r.queries item uri before history failure queries := by
  unfold askVersion at h
  dsimp only at h
  split at h
  · rename_i hanswer
    cases h
    exact ⟨_, rfl, .unanswered hbefore hremote hanswer⟩
  · split at h
    · cases h
      exact ⟨_, rfl, .unwritten hbefore hremote⟩
    · cases h

theorem lookUpVersion_refused (hbefore : ∀ p, before = some p → p.mutable = false)
    (hremote : Location.isLocal uri = false)
    (h : lookUpVersion s r item.name uri history = (r', .error failure)) :
    ∃ queries notices, r' = { r with queries, notices } ∧
      Refused s r.cache r.queries item uri before history failure queries := by
  unfold lookUpVersion at h
  dsimp only at h
  split at h
  · rename_i hget
    cases h
    exact ⟨_, _, rfl, .unread hbefore hremote hget⟩
  · obtain ⟨queries, rfl, hrefused⟩ := askVersion_refused hbefore hremote h
    exact ⟨queries, _, rfl, hrefused⟩
  · split at h
    · cases h
    · obtain ⟨queries, rfl, hrefused⟩ := askVersion_refused hbefore hremote h
      exact ⟨queries, _, rfl, hrefused⟩

theorem conflict?_refused (before : Option Pick) (h : conflict? item history = some failure) :
    Refused s r.cache r.queries item uri before history failure r.queries := by
  unfold conflict? at h
  split at h
  · cases h
  · rename_i pinned hpinned
    split at h
    · rename_i hother
      cases h
      simp only [Bool.and_eq_true, decide_eq_true_eq] at hother
      exact .conflict hpinned hother.1 hother.2
    · cases h

theorem choosePick_refused (h : choosePick s r item uri = (r', .error failure)) :
    ∃ queries notices, r' = { r with queries, notices } ∧
      Refused s r.cache r.queries item uri ((r.agenda.find? item.name).bind Entry.pick)
        (r.agenda.history item.name) failure queries := by
  unfold choosePick at h
  dsimp only at h
  split at h
  · rename_i hconflict
    cases h
    exact ⟨_, _, rfl, conflict?_refused _ hconflict⟩
  · split at h
    · cases h
    · rename_i hnone
      have hbefore := immutable_of_filter_eq_none hnone
      split at h
      · cases h
      · rename_i hremote
        exact lookUpVersion_refused hbefore (by simpa using hremote) h

end Refused

theorem expansion (s : Surroundings) (r : Run) (m : PinnedModule) :
    Expansion s r m (expand s r m) := by
  by_cases hknown : (r.agenda.find? m.name).bind Entry.expanded = some m
  · have hexpand : expand s r m = r := if_pos hknown
    rw [hexpand]
    exact .known hknown
  · have hfetch : ({ uri := m.uri, version := m.version } : Fetch) = m.fetch := rfl
    rw [expand_of_new hknown, fetchManifest, hfetch]
    split
    · rename_i houtcome
      exact .failed hknown (.unserved houtcome)
    · rename_i manifest houtcome
      split
      · rename_i hname
        exact .fetched hknown houtcome hname
      · rename_i hname
        exact .failed hknown (.misnamed houtcome hname)

theorem step_turn (hsound : r.agenda.IsSound) (hactive : r.isActive = true) :
    Turn s r (step s r) := by
  obtain ⟨task, rest, htasks, ⟨fault, hbroken⟩ | ⟨d, entry, m, hdemand, hfind, hgiven, hchosen,
    hname⟩ | ⟨d, before, htaken⟩⟩ := first_cases hsound hactive
  · rw [step_of_lost htasks hbroken]
    exact .lost htasks hbroken
  · rw [step_of_given htasks hdemand hfind hgiven hchosen hname]
    exact .given htasks hdemand hfind hgiven hchosen hname (expansion _ _ _)
  · have hself : (r.noting task rest d).agenda.find? task.requirement.name =
        some { before with history := before.history ++ [d] } := by
      rw [htaken.find?_noting, if_pos rfl]
    cases hchoose : choosePick s (r.noting task rest d) (r.itemOf task d)
        (r.agenda.uriOf task.requirement.name) with
    | mk after outcome =>
      cases outcome with
      | error failure =>
        have hstep := htaken.step_of_error hchoose
        obtain ⟨queries, notices, rfl, hrefused⟩ := choosePick_refused hchoose
        dsimp only [itemOf] at hrefused
        rw [hself, htaken.history_noting] at hrefused
        rw [hstep]
        exact .refused htaken hrefused
      | ok pick =>
        obtain ⟨_, cache, queries, notices, rfl, hpicked⟩ := choosePick_ok hchoose
        dsimp only [itemOf] at hpicked
        rw [hself, htaken.history_noting] at hpicked
        rw [step_of_taken htaken, process_of_choosePick rfl hchoose]
        exact .picked htaken rfl hpicked (expansion _ _ _)

/-- What every turn preserves, whatever the time, holds in all states, failures included. -/
theorem invariant_of_turn {P : Run → Prop} (hsound : start.agenda.IsSound) (hstart : P start)
    (hstep : ∀ now later r r', r.failure = none → P r → Turn { s with now, later } r r' → P r')
    (h : Reachable s start t r) : P r := by
  induction h with
  | initial => exact hstart
  | @next t r hr hactive ih =>
    have hnone := (exists_task_of_isActive hactive).1
    have hturn := step_turn (s := t) (isSound_reachable hsound hr hnone) hactive
    generalize step t r = r' at hturn ⊢
    rw [hr.surroundings] at hturn
    exact hstep _ _ r r' hnone ih hturn

theorem find?_withChosen (r : Run) (m : PinnedModule) (pick : Pick) (name : String) :
    (r.withChosen m pick).agenda.find? name =
      if name = m.name then
        some { (r.agenda.find? m.name).getD {} with pick := some pick, chosen := some m }
      else r.agenda.find? name :=
  Agenda.find?_update _ _ _ _

theorem Taken.find?_withChosen {task : Task} {rest : List Task} {d : Demand} {before : Entry}
    (h : Taken r task rest d before) (cache : Cache) (queries : List Query) (notices : List Notice)
    {m : PinnedModule} (hname : m.name = task.requirement.name) (pick : Pick) (name : String) :
    ({ r.noting task rest d with cache, queries, notices }.withChosen m pick).agenda.find? name =
      if name = task.requirement.name then
        some { before with
          history := before.history ++ [d], pick := some pick, chosen := some m }
      else r.agenda.find? name := by
  have hnoting : ∀ other, ({ r.noting task rest d with cache, queries, notices } : Run).agenda.find?
      other = if other = task.requirement.name then
        some { before with history := before.history ++ [d] } else r.agenda.find? other :=
    h.find?_noting
  rw [Run.find?_withChosen, hname, hnoting, hnoting]
  by_cases hn : name = task.requirement.name
  · simp [hn]
  · simp [hn]

theorem Turn.replacements (h : Turn s r r') :
    r'.agenda.replacements = r.agenda.replacements := by
  cases h with
  | lost _ _ => rfl
  | given _ _ _ _ _ _ h =>
    rw [h.replacements]
    exact Agenda.replacements_meet _ _
  | refused _ _ => exact Agenda.replacements_recorded _ _ _
  | @picked task rest d _ _ _ _ _ _ _ _ _ _ h =>
    rw [h.replacements]
    exact Agenda.replacements_recorded { r.agenda with tasks := rest } task.requirement.name d

theorem Refused.queries {cache : Cache} {asked queries : List Query} {item : Item} {uri : String}
    {before : Option Pick} {history : History} {failure : Failure}
    (h : Refused s cache asked item uri before history failure queries) : asked <+: queries := by
  cases h with
  | conflict _ _ _ => exact List.prefix_rfl
  | unread _ _ _ => exact List.prefix_rfl
  | unanswered _ _ _ => exact List.prefix_append _ _
  | unwritten _ _ => exact List.prefix_append _ _

theorem Picked.queries {cache after : Cache} {asked queries : List Query} {uri : String}
    {before : Option Pick} {history : History} {pick : Pick}
    (h : Picked s cache asked uri before history pick after queries) : asked <+: queries := by
  cases h with
  | stays _ _ => exact List.prefix_rfl
  | here _ _ => exact List.prefix_rfl
  | cached _ _ _ _ => exact List.prefix_rfl
  | asked _ _ _ _ _ _ => exact List.prefix_append _ _

theorem Turn.queries_prefix (h : Turn s r r') : r.queries <+: r'.queries := by
  cases h with
  | lost _ _ => exact List.prefix_rfl
  | given _ _ _ _ _ _ h => exact h.queries ▸ List.prefix_rfl
  | refused _ hrefused => exact hrefused.queries
  | picked _ _ hpicked h =>
    rw [h.queries]
    exact hpicked.queries

theorem Taken.not_given {task : Task} {rest : List Task} {d : Demand} {before e : Entry}
    (h : Taken r task rest d before) (hfind : r.agenda.find? task.requirement.name = some e) :
    e.given = false := by
  have hwas := h.was
  rw [hfind, Option.getD_some] at hwas
  exact hwas ▸ h.notGiven

/-- What becomes of an entry in one turn. Only that of the first task changes: a given module is
marked as expanded, any other has the demand added to its history, and is settled unless the run
fails. -/
theorem Turn.find?_cases (h : Turn s r r') (name : String) :
    r'.agenda.find? name = r.agenda.find? name ∨
      (∃ e m, r.agenda.find? name = some e ∧ e.given = true ∧ e.chosen = some m ∧
        r'.agenda.find? name = some { e with expanded := some m }) ∨
      ∃ task rest d before, Taken r task rest d before ∧ task.requirement.name = name ∧
        (r'.failure.isSome = true ∧
            r'.agenda.find? name = some { before with history := before.history ++ [d] } ∨
          ∃ pick,
            Picked s r.cache r.queries (r.agenda.uriOf name) before.pick (before.history ++ [d])
              pick r'.cache r'.queries ∧
            r'.agenda.find? name = some (settledEntry (before.history ++ [d]) pick
              (pick.pinned name (r.agenda.uriOf name)))) := by
  cases h with
  | lost _ _ => exact .inl rfl
  | @given task rest _ entry m _ _ _ hfind hgiven hchosen _ h =>
    have hmet : ∀ other, ({ r.agenda with tasks := rest }.meet m.name).find? other =
        r.agenda.find? other := fun other => Agenda.find?_meet _ _ _
    rcases h.find? name with hsame | ⟨rfl, hmarked⟩
    · exact .inl (hsame.trans (hmet name))
    · rw [hmet, hfind, Option.getD_some] at hmarked
      exact .inr (.inl ⟨entry, m, hfind, hgiven, hchosen, hmarked⟩)
  | @refused task _ _ _ _ _ _ htaken _ =>
    have hfind := htaken.find?_noting name
    by_cases hname : name = task.requirement.name
    · rw [if_pos hname] at hfind
      exact .inr (.inr ⟨_, _, _, _, htaken, hname.symm, .inl ⟨rfl, hfind⟩⟩)
    · rw [if_neg hname] at hfind
      exact .inl hfind
  | @picked task rest d before pick cache queries notices m _ htaken hshape hpicked h =>
    have hown : m.name = task.requirement.name := congrArg PinnedModule.name hshape
    have hfind := htaken.find?_withChosen cache queries notices hown pick
    by_cases hname : name = task.requirement.name
    · subst hname
      refine .inr (.inr ⟨_, _, _, _, htaken, rfl, .inr ⟨pick, ?_, ?_⟩⟩)
      · rw [h.cache, h.queries]
        exact hpicked
      · have hself := h.find?_self ((hfind m.name).trans (if_pos hown))
        rw [hown] at hself
        rw [← hshape, hself, settledEntry, htaken.notGiven]
    · -- Neither the pick nor the expansion touches an entry of another name.
      left
      rcases h.find? name with hsame | ⟨hself, _⟩
      · rw [hsame, hfind, if_neg hname]
      · exact absurd (hself.trans hown) hname

theorem givenAmong_turn {names : List String} (hr : r.GivenAmong names) (h : Turn s r r') :
    r'.GivenAmong names := by
  intro name e hfind hgiven
  rcases h.find?_cases name with hsame | ⟨old, _, hold, hg, _⟩ | ⟨_, _, _, before, htaken, _,
    ⟨_, hfind'⟩ | ⟨_, _, hfind'⟩⟩
  · exact hr name e (hsame.symm.trans hfind) hgiven
  · exact hr name old hold hg
  · rw [hfind', Option.some.injEq] at hfind
    subst hfind
    simp [htaken.notGiven] at hgiven
  · rw [hfind', Option.some.injEq] at hfind
    subst hfind
    cases hgiven

/-- Every name has the entry of a given module. -/
def GivenAll (names : List String) (r : Run) : Prop :=
  ∀ name ∈ names, ∃ e, r.agenda.find? name = some e ∧ e.given = true

theorem givenAll_start (tasks : List Task) (replacements : List (String × String))
    (given : List PinnedModule) (base : Path) (cache : Cache) (workers : Nat) :
    GivenAll (given.map PinnedModule.name)
      { agenda := .start tasks replacements given base, cache, workers } := by
  intro name hname
  cases hfind : (Agenda.start tasks replacements given base).find? name with
  | some e =>
    obtain ⟨_, _, _, rfl⟩ := Agenda.find?_start name tasks replacements given base e hfind
    exact ⟨_, rfl, rfl⟩
  | none => exact absurd hname ((Agenda.find?_start_eq_none_iff name _ _ _ _).mp hfind)

theorem givenAll_turn {names : List String} (hr : r.GivenAll names) (h : Turn s r r') :
    r'.GivenAll names := by
  intro name hname
  obtain ⟨e, hfind, hgiven⟩ := hr name hname
  rcases h.find?_cases name with hsame | ⟨old, _, _, hold, _, hfind'⟩ | ⟨_, _, _, _, htaken, rfl, _⟩
  · exact ⟨e, hsame.trans hfind, hgiven⟩
  · exact ⟨_, hfind', hold⟩
  · simp [htaken.not_given hfind] at hgiven

theorem Taken.not_mem {names : List String} {task : Task} {rest : List Task} {d : Demand}
    {before : Entry} (h : Taken r task rest d before) (hall : r.GivenAll names) :
    task.requirement.name ∉ names := by
  intro hname
  obtain ⟨e, hfind, hgiven⟩ := hall _ hname
  simp [h.not_given hfind] at hgiven

theorem givenAmong_reachable {goal : Goal} {given : List PinnedModule} {workers : Int}
    {cache : Cache} {base : Path} (hstart : Run.start goal given workers cache base = .ok start)
    (h : Reachable s start t r) :
    r.GivenAmong ((goal.injected given).map PinnedModule.name) := by
  obtain ⟨_, rfl⟩ := start_ok hstart
  exact invariant_of_turn (isSound_start _ _ _ _) (givenAmong_start _ _ _ _ _ _)
    (fun _ _ _ _ _ hr hturn => givenAmong_turn hr hturn) h

theorem givenAll_reachable {goal : Goal} {given : List PinnedModule} {workers : Int}
    {cache : Cache} {base : Path} (hstart : Run.start goal given workers cache base = .ok start)
    (h : Reachable s start t r) :
    r.GivenAll ((goal.injected given).map PinnedModule.name) := by
  obtain ⟨_, rfl⟩ := start_ok hstart
  exact invariant_of_turn (isSound_start _ _ _ _) (givenAll_start _ _ _ _ _ _)
    (fun _ _ _ _ _ hr hturn => givenAll_turn hr hturn) h

end Run

end ModulePins
