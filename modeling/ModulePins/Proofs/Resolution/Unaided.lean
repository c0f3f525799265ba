import ModulePins.Proofs.Resolution.Turn

/-!
# Steps that ask nobody

A given module and a module in a local folder are dealt with unaided: neither the version source nor
the cache makes a difference. A module with a mutable pick is dealt with alone: its step does
without the manifest store, too, and fails only for asking for another channel.
-/

namespace ModulePins

namespace Run

variable {s other : Surroundings} {r r' start : Run}

def onCache (r : Run) (cache : Cache) : Run :=
  { r with cache }

/-- The next step makes do without the version source and the cache, and is the same with any
others. -/
structure Unaided (s : Surroundings) (r : Run) : Prop where
  queries : (step s r).queries = r.queries
  cache : (step s r).cache = r.cache
  same : ∀ (versions : VersionSource) (now : Int) (cache : Cache),
    step { s with versions, now } (r.onCache cache) = (step s r).onCache cache

/-- The next step makes do without the manifest store as well. -/
structure Alone (s : Surroundings) (r : Run) : Prop where
  queries : (step s r).queries = r.queries
  fetches : (step s r).fetches = r.fetches
  cache : (step s r).cache = r.cache
  same : ∀ (other : Surroundings) (cache : Cache),
    step other (r.onCache cache) = (step s r).onCache cache

theorem fetchManifest_onCache (hstore : other.manifests = s.manifests) (r : Run) (m : PinnedModule)
    (cache : Cache) :
    fetchManifest other (r.onCache cache) m =
      ((fetchManifest s r m).1.onCache cache, (fetchManifest s r m).2) := by
  unfold fetchManifest
  dsimp only [onCache]
  rw [hstore]
  split
  · rfl
  · split <;> rfl

theorem expand_onCache (hstore : other.manifests = s.manifests) (r : Run) (m : PinnedModule)
    (cache : Cache) : expand other (r.onCache cache) m = (expand s r m).onCache cache := by
  by_cases hknown : (r.agenda.find? m.name).bind Entry.expanded = some m
  · have hexpand : expand s r m = r := if_pos hknown
    rw [hexpand]
    exact if_pos hknown
  · have hmarked : (r.onCache cache).marked m = (r.marked m).onCache cache := rfl
    rw [expand_of_new hknown, expand_of_new (r := r.onCache cache) hknown, hmarked,
      fetchManifest_onCache hstore]
    cases fetchManifest s (r.marked m) m with
    | mk after outcome => cases outcome <;> rfl

/-- The module has a pick that stays. -/
def HasMutable (r : Run) (name : String) : Prop :=
  ∃ pick, (r.agenda.find? name).bind Entry.pick = some pick ∧ pick.mutable = true

theorem choosePick_onCache {item : Item} {uri : String}
    (h : r.HasMutable item.name ∨ Location.isLocal uri = true) (other : Surroundings)
    (cache : Cache) :
    choosePick other (r.onCache cache) item uri =
      ((choosePick s r item uri).1.onCache cache, (choosePick s r item uri).2) := by
  unfold choosePick
  dsimp only [onCache]
  split
  · rfl
  · split
    · rfl
    · rename_i hnone
      rcases h with ⟨pick, hpick, hmutable⟩ | hlocal
      · rw [hpick, Option.filter_some, if_pos hmutable] at hnone
        cases hnone
      · rw [if_pos hlocal, if_pos hlocal]

theorem process_onCache {item : Item} {uri : String}
    (h : r.HasMutable item.name ∨ Location.isLocal uri = true)
    (hstore : other.manifests = s.manifests) (huri : item.uri = some uri) (cache : Cache) :
    process other (r.onCache cache) item = (process s r item).onCache cache := by
  simp only [process, huri, choosePick_onCache (s := s) h]
  cases choosePick s r item uri with
  | mk after outcome =>
    cases outcome with
    | error failure => rfl
    | ok pick =>
      exact expand_onCache hstore (after.withChosen (pick.pinned item.name uri) pick)
        (pick.pinned item.name uri) cache

section Unaided

variable {task : Task} {rest : List Task} {d : Demand}

theorem alone_of_lost {fault : RangeFault} (htasks : r.agenda.tasks = task :: rest)
    (hbroken : Agenda.demand task = .error fault) : Alone s r := by
  have hstep := step_of_lost (s := s) htasks hbroken
  refine ⟨by rw [hstep], by rw [hstep], by rw [hstep], fun other cache => ?_⟩
  rw [hstep, step_of_lost (r := r.onCache cache) htasks hbroken]
  rfl

theorem Alone.unaided (h : Alone s r) : Unaided s r :=
  ⟨h.queries, h.cache, fun _ _ cache => h.same _ cache⟩

theorem unaided_of_given {entry : Entry} {m : PinnedModule}
    (htasks : r.agenda.tasks = task :: rest) (hdemand : Agenda.demand task = .ok d)
    (hfind : r.agenda.find? m.name = some entry) (hgiven : entry.given = true)
    (hchosen : entry.chosen = some m) (hname : m.name = task.requirement.name) : Unaided s r := by
  let met : Run := { r with agenda := { r.agenda with tasks := rest }.meet m.name }
  have hstep : step s r = expand s met m :=
    step_of_given htasks hdemand hfind hgiven hchosen hname
  have hexpansion := expansion s met m
  rw [← hstep] at hexpansion
  refine ⟨hexpansion.queries, hexpansion.cache, fun versions now cache => ?_⟩
  rw [hstep, step_of_given (r := r.onCache cache) htasks hdemand hfind hgiven hchosen hname]
  exact expand_onCache rfl met m cache

theorem Taken.pick_noting {before : Entry} (h : Taken r task rest d before) :
    ((r.noting task rest d).agenda.find? task.requirement.name).bind Entry.pick = before.pick := by
  rw [h.find?_noting, if_pos rfl]
  rfl

/-- With a local module in front, no turn looks up a version. -/
theorem Turn.quiet (h : Turn s r r') (htasks : r.agenda.tasks = task :: rest)
    (hlocal : ∀ d before, Taken r task rest d before →
      Location.isLocal (r.agenda.uriOf task.requirement.name) = true) :
    r'.queries = r.queries ∧ r'.cache = r.cache := by
  have hremote : ∀ {t : Task} {ts : List Task} {d : Demand} {before : Entry},
      Taken r t ts d before → Location.isLocal (r.agenda.uriOf t.requirement.name) ≠ false := by
    intro t ts d before htaken
    have hfirst := htaken.first
    rw [htasks, List.cons.injEq] at hfirst
    obtain ⟨rfl, rfl⟩ := hfirst
    simp [hlocal d before htaken]
  cases h with
  | lost _ _ => exact ⟨rfl, rfl⟩
  | given _ _ _ _ _ _ h => exact ⟨h.queries, h.cache⟩
  | refused htaken hrefused =>
    cases hrefused with
    | conflict _ _ _ => exact ⟨rfl, rfl⟩
    | unread _ hr _ => exact absurd hr (hremote htaken)
    | unanswered _ hr _ => exact absurd hr (hremote htaken)
    | unwritten _ hr => exact absurd hr (hremote htaken)
  | picked htaken hshape hpicked h =>
    rw [h.queries, h.cache]
    cases hpicked with
    | stays _ _ => exact ⟨rfl, rfl⟩
    | here _ _ => exact ⟨rfl, rfl⟩
    | cached _ hr _ _ => exact absurd hr (hremote htaken)
    | asked _ hr _ _ _ _ => exact absurd hr (hremote htaken)

theorem unaided_of_local (hsound : r.agenda.IsSound) (hactive : r.isActive = true)
    (htasks : r.agenda.tasks = task :: rest)
    (hlocal : ∀ d before, Taken r task rest d before →
      Location.isLocal (r.agenda.uriOf task.requirement.name) = true) : Unaided s r := by
  obtain ⟨t, ts, hfirst, ⟨fault, hbroken⟩ | ⟨d, entry, m, hdemand, hfind, hgiven, hchosen,
    hname⟩ | ⟨d, before, htaken⟩⟩ := first_cases hsound hactive
  · exact (alone_of_lost hfirst hbroken).unaided
  · exact unaided_of_given hfirst hdemand hfind hgiven hchosen hname
  · rw [htasks, List.cons.injEq] at hfirst
    obtain ⟨rfl, rfl⟩ := hfirst
    obtain ⟨hqueries, hcache⟩ := (step_turn (s := s) hsound hactive).quiet htasks hlocal
    refine ⟨hqueries, hcache, fun versions now cache => ?_⟩
    have hagain : Taken (r.onCache cache) task rest d before := { htaken with }
    rw [step_of_taken htaken, step_of_taken hagain]
    have hstore : ({ s with versions, now } : Surroundings).manifests = s.manifests := rfl
    have hitem : (r.itemOf task d).uri = some (r.agenda.uriOf task.requirement.name) := rfl
    have hnoting : (r.onCache cache).noting task rest d = (r.noting task rest d).onCache cache := rfl
    rw [hnoting]
    exact process_onCache (.inr (hlocal d before htaken)) hstore hitem cache

end Unaided

section Settled

variable {task : Task} {rest : List Task} {d : Demand} {name : String} {m : PinnedModule}

/-- A module is settled on a mutable pick. -/
def Moored (r : Run) (name : String) (m : PinnedModule) : Prop :=
  ∃ history pick, r.agenda.find? name = some (settledEntry history pick m) ∧
    m = pick.pinned name (r.agenda.uriOf name) ∧ pick.mutable = true

theorem Picked.eq_of_mutable {cache after : Cache} {asked queries : List Query} {uri : String}
    {history : History} {old pick : Pick} (hmutable : old.mutable = true)
    (h : Picked s cache asked uri (some old) history pick after queries) : pick = old := by
  cases h with
  | stays hbefore _ => exact (Option.some.inj hbefore).symm
  | here hbefore _ => simp [hbefore old rfl] at hmutable
  | cached hbefore _ _ _ => simp [hbefore old rfl] at hmutable
  | asked hbefore _ _ _ _ _ => simp [hbefore old rfl] at hmutable

theorem Moored.turn (hr : r.Moored name m) (h : Turn s r r') : r'.Moored name m := by
  obtain ⟨history, pick, hfind, hshape, hmutable⟩ := hr
  have huri : r'.agenda.uriOf name = r.agenda.uriOf name := Agenda.uriOf_congr h.replacements name
  rw [← huri] at hshape
  rcases h.find?_cases name with hsame | ⟨e, _, he, hgiven, _⟩ | ⟨task, rest, d, before, htaken, rfl,
    hcases⟩
  · exact ⟨history, pick, hsame.trans hfind, hshape, hmutable⟩
  · rw [hfind, Option.some.injEq] at he
    subst he
    cases hgiven
  · have hbefore : before = settledEntry history pick m := by
      rw [htaken.was, hfind, Option.getD_some]
    subst hbefore
    rcases hcases with ⟨_, hfind'⟩ | ⟨pick', hpicked, hfind'⟩
    · exact ⟨history ++ [d], pick, hfind', hshape, hmutable⟩
    · obtain rfl := hpicked.eq_of_mutable hmutable
      rw [← huri, ← hshape] at hfind'
      exact ⟨history ++ [d], pick', hfind', hshape, hmutable⟩

/-- The step for a module with a mutable pick fails for another channel, or gives notice that the
pick stays. -/
theorem Taken.step_of_moored {before : Entry} (h : Taken r task rest d before)
    (hr : r.Moored task.requirement.name m) :
    step s r =
      match conflict? (r.itemOf task d) (before.history ++ [d]) with
      | some failure => (r.noting task rest d).fail failure
      | none =>
        { r.noting task rest d with
          notices := r.notices ++ [mutableNotice m.name m.version] }.withChosen m m.pick := by
  obtain ⟨history, pick, hfind, hshape, hmutable⟩ := hr
  have hbefore : before = settledEntry history pick m := by
    rw [h.was, hfind, Option.getD_some]
  have hpick := h.pick_noting
  rw [hbefore, settledEntry] at hpick
  have hitem : (r.itemOf task d).name = task.requirement.name := rfl
  rw [step_of_taken h]
  cases hconflict : conflict? (r.itemOf task d) (before.history ++ [d]) with
  | some failure =>
    have huri : (r.itemOf task d).uri = some (r.agenda.uriOf task.requirement.name) := rfl
    simp only [process, huri, choosePick, hitem, h.history_noting, hconflict]
  | none =>
    have hown : m.name = task.requirement.name := congrArg PinnedModule.name hshape
    have hmpick : m.pick = pick := by
      rw [hshape]
      rfl
    let noted : Run :=
      { r.noting task rest d with notices := r.notices ++ [mutableNotice m.name m.version] }
    have hchoose : choosePick s (r.noting task rest d) (r.itemOf task d)
        (r.agenda.uriOf task.requirement.name) = (noted, .ok pick) := by
      have htag : m.version = pick.tag := congrArg PinnedModule.version hshape
      simp only [choosePick, hitem, h.history_noting, hconflict, hpick, Option.filter_some,
        hmutable, if_true, noted, hown, htag]
      rfl
    have hknown : ((noted.withChosen m pick).agenda.find? m.name).bind Entry.expanded = some m := by
      have hfind' := h.find?_withChosen r.cache r.queries noted.notices hown pick m.name
      rw [if_pos hown] at hfind'
      exact (congrArg (Option.bind · Entry.expanded) hfind').trans (by rw [hbefore]; rfl)
    rw [process_of_choosePick rfl hchoose, hitem, ← hshape, hmpick]
    exact if_pos hknown

theorem channelConflict_of_conflict? {item : Item} {history : History} {failure : Failure}
    (h : conflict? item history = some failure) :
    ∃ pinned, history.pinning? = some pinned ∧
      failure = .channelConflict item.name pinned.channel pinned.parent item.channel
        item.task.parent history := by
  unfold conflict? at h
  split at h
  · cases h
  · rename_i pinned hpinned
    split at h
    · cases h
      exact ⟨pinned, hpinned, rfl⟩
    · cases h

theorem Moored.taken_alone {before : Entry} (hr : r.Moored task.requirement.name m)
    (h : Taken r task rest d before) : Alone s r := by
  have hstep := h.step_of_moored (s := s) hr
  refine ⟨?_, ?_, ?_, fun other cache => ?_⟩
  · rw [hstep]
    split <;> rfl
  · rw [hstep]
    split <;> rfl
  · rw [hstep]
    split <;> rfl
  · have hagain : Taken (r.onCache cache) task rest d before := { h with }
    rw [hstep, hagain.step_of_moored (r := r.onCache cache) hr]
    have hitem : (r.onCache cache).itemOf task d = r.itemOf task d := rfl
    rw [hitem]
    split <;> rfl

/-- With a mutable pick in front the step is taken alone, and a failure is a conflict of
channels. -/
theorem Moored.alone (hr : r.Moored task.requirement.name m) (hsound : r.agenda.IsSound)
    (hactive : r.isActive = true) (htasks : r.agenda.tasks = task :: rest) :
    Alone s r ∧ ((step s r).failure = none ∨
      ∃ previousChannel previousParent channel parent history, (step s r).failure =
        some (.channelConflict task.requirement.name previousChannel previousParent channel parent
          history)) := by
  have hnone := (exists_task_of_isActive hactive).1
  obtain ⟨t, ts, hfirst, ⟨fault, hbroken⟩ | ⟨_, entry, own, _, hfind, hgiven, _, hname⟩ |
    ⟨d, before, htaken⟩⟩ := first_cases hsound hactive
  · refine ⟨alone_of_lost hfirst hbroken, .inl ?_⟩
    rw [step_of_lost hfirst hbroken]
    exact hnone
  · rw [htasks, List.cons.injEq] at hfirst
    obtain ⟨rfl, rfl⟩ := hfirst
    obtain ⟨_, _, hfind', _⟩ := hr
    rw [← hname, hfind, Option.some.injEq] at hfind'
    subst hfind'
    cases hgiven
  · rw [htasks, List.cons.injEq] at hfirst
    obtain ⟨rfl, rfl⟩ := hfirst
    refine ⟨hr.taken_alone htaken, ?_⟩
    rw [htaken.step_of_moored hr]
    cases hconflict : conflict? (r.itemOf task d) (before.history ++ [d]) with
    | none => exact .inl hnone
    | some failure =>
      obtain ⟨pinned, _, rfl⟩ := channelConflict_of_conflict? hconflict
      exact .inr ⟨_, _, _, _, _, rfl⟩

end Settled

end Run

end ModulePins
