import ModulePins.Proofs.Resolution.Turn

/-!
# Visits to the manifest store

A step visits the manifest store at most once, for the module that it marks as expanded. All fetches
of a run are such visits, and all requests that it ever has on its agenda are there from the
beginning or were put there in one of them.
-/

namespace ModulePins

/-- A visit to the manifest store: the module that is asked for, the channel in force for its name,
and the requests that the visit puts on the agenda. -/
structure Visit where
  module : PinnedModule
  channel : String
  queued : List Task
  deriving DecidableEq, Repr

namespace Visit

/-- The visit is for this version of this module. -/
def IsFor (v : Visit) (name version : String) : Prop :=
  v.module.name = name ∧ v.module.version = version

instance (v : Visit) (name version : String) : Decidable (v.IsFor name version) :=
  inferInstanceAs (Decidable (_ ∧ _))

/-- The requests of the manifest that the store served, or none if it served none. -/
def Served (s : Surroundings) (v : Visit) : Prop :=
  v.queued = [] ∨ ∃ before manifest, (s.manifests before v.module.fetch).outcome = .ok manifest ∧
    manifest.name = v.module.name ∧ v.queued = manifest.tasks v.module

theorem Served.of_manifests {s t : Surroundings} {v : Visit} (h : v.Served t)
    (hsame : t.manifests = s.manifests) : v.Served s := by
  unfold Served
  rw [← hsame]
  exact h

end Visit

namespace Run

variable {s t : Surroundings} {r r' mid start : Run}

/-- The module of a name that was expanded last. -/
def expandedAt (r : Run) (name : String) : Option PinnedModule :=
  (r.agenda.find? name).bind Entry.expanded

/-- The visit of a step from `r` to `r'`: the module of the first task is marked as expanded. -/
def visit? (r r' : Run) : Option Visit :=
  match r.agenda.tasks with
  | [] => none
  | task :: rest =>
    let name := task.requirement.name
    match r'.expandedAt name with
    | none => none
    | some m =>
      if r.expandedAt name = some m then none
      else
        some
          { module := m
            channel := (r'.agenda.history name).channel
            queued := r'.agenda.tasks.drop rest.length }

/-- A run came to the state `r` by taking `tasks` off its agenda, and made `visits` on the way. -/
inductive Course (s : Surroundings) (start : Run) :
    List Task → List Visit → Surroundings → Run → Prop
  | initial : Course s start [] [] s start
  | next {tasks rest : List Task} {task : Task} {visits : List Visit} {t : Surroundings} {r : Run}
      (h : Course s start tasks visits t r) (hactive : r.isActive = true)
      (hfirst : r.agenda.tasks = task :: rest) :
      Course s start (tasks ++ [task]) (visits ++ (visit? r (step t r)).toList) t.next (step t r)

/-- Why a visit is made: its module was given, or was picked for the whole history of its name, and
is not the one that was expanded last. -/
inductive Due (s : Surroundings) (r : Run) (v : Visit) : Prop
  | given {e : Entry} (hfind : r.agenda.find? v.module.name = some e) (hgiven : e.given = true)
      (hchosen : e.chosen = some v.module) (hnew : e.expanded ≠ some v.module)
  | picked {task : Task} {rest : List Task} {d : Demand} {before : Entry} {pick : Pick}
      {cache : Cache} {queries : List Query} (htaken : Taken r task rest d before)
      (hshape : v.module =
        pick.pinned task.requirement.name (r.agenda.uriOf task.requirement.name))
      (hpicked : Picked s r.cache r.queries (r.agenda.uriOf task.requirement.name) before.pick
        (before.history ++ [d]) pick cache queries)
      (hnew : before.expanded ≠ some v.module)
      (hchannel : v.channel = History.channel (before.history ++ [d]))

section Visit

variable {task : Task} {rest : List Task} {m : PinnedModule} {v : Visit}

theorem expanded_of_visit? (h : visit? r r' = some v) :
    ∃ task rest e, r.agenda.tasks = task :: rest ∧
      r'.agenda.find? task.requirement.name = some e ∧ e.expanded = some v.module ∧
      e.history.channel = v.channel := by
  unfold visit? at h
  split at h
  · cases h
  · rename_i task rest htasks
    dsimp only at h
    split at h
    · cases h
    · rename_i m hm
      split at h
      · cases h
      · cases h
        obtain ⟨e, hfind, hexpanded⟩ := Option.bind_eq_some_iff.mp hm
        exact ⟨task, rest, e, htasks, hfind, hexpanded, by rw [Agenda.history_of_find? _ _ hfind]⟩

theorem visit?_of_same (htasks : r.agenda.tasks = task :: rest)
    (hsame : r'.expandedAt task.requirement.name = r.expandedAt task.requirement.name) :
    visit? r r' = none := by
  simp only [visit?, htasks, hsame]
  split
  · rfl
  · rename_i hm
    rw [hm, if_pos rfl]

theorem Expansion.visits (h : Expansion s mid m r') (htasks : r.agenda.tasks = task :: rest)
    (hname : m.name = task.requirement.name) (hrest : mid.agenda.tasks = rest)
    (hsame : mid.expandedAt m.name = r.expandedAt m.name) (hfetches : mid.fetches = r.fetches) :
    (visit? r r' = none ∧ r'.fetches = r.fetches ∧ r'.agenda.tasks = rest) ∨
      ∃ v, visit? r r' = some v ∧ v.module = m ∧ r.expandedAt m.name ≠ some m ∧
        v.channel = (mid.agenda.history m.name).channel ∧ r'.fetches = r.fetches ++ [m.fetch] ∧
        r'.agenda.tasks = rest ++ v.queued ∧ v.Served s := by
  have hhistory := h.history m.name
  -- Whatever is put on the agenda comes after the requests that were there.
  have hvisit : ∀ queued, r.expandedAt m.name ≠ some m → r'.expandedAt m.name = some m →
      r'.agenda.tasks = rest ++ queued →
      visit? r r' = some { module := m, channel := (mid.agenda.history m.name).channel, queued } := by
    intro queued hnew hmarked hqueued
    rw [visit?, htasks]
    dsimp only
    rw [← hname, hmarked]
    dsimp only
    rw [if_neg hnew, hhistory, hqueued, List.drop_left]
  have hmarked : (mid.marked m).expandedAt m.name = some m := by simp [expandedAt, marked]
  have hkept : (mid.marked m).agenda.tasks = rest := by simp [marked, hrest]
  cases h with
  | known _ => exact .inl ⟨visit?_of_same htasks (by rw [← hname, hsame]), hfetches, hrest⟩
  | failed hnew _ =>
    right
    have hnew : r.expandedAt m.name ≠ some m := hsame ▸ hnew
    have hqueued := hkept.trans (List.append_nil rest).symm
    exact ⟨_, hvisit [] hnew hmarked hqueued, rfl, hnew, rfl, by rw [hfetches], hqueued, .inl rfl⟩
  | @fetched manifest notices hnew hserved hdeclared =>
    right
    have hnew : r.expandedAt m.name ≠ some m := hsame ▸ hnew
    exact ⟨_, hvisit (manifest.tasks m) hnew hmarked (by rw [hrest]), rfl, hnew, rfl,
      by rw [hfetches], by rw [hrest], .inr ⟨_, manifest, hserved, hdeclared, rfl⟩⟩

theorem Taken.expandedAt {d : Demand} {before : Entry} (h : Taken r task rest d before) :
    r.expandedAt task.requirement.name = before.expanded := by
  rw [Run.expandedAt]
  rcases h.before_eq with ⟨hnone, rfl⟩ | hfind
  · rw [hnone]
    rfl
  · rw [hfind]
    rfl

/-- A step makes one visit, which is due, or none. -/
theorem Turn.visits (h : Turn s r r') : ∃ task rest, r.agenda.tasks = task :: rest ∧
    ((visit? r r' = none ∧ r'.fetches = r.fetches ∧ r'.agenda.tasks = rest) ∨
      ∃ v, visit? r r' = some v ∧ v.module.name = task.requirement.name ∧ Due s r v ∧
        r'.fetches = r.fetches ++ [v.module.fetch] ∧ r'.agenda.tasks = rest ++ v.queued ∧
        v.Served s) := by
  cases h with
  | @lost task rest _ htasks _ =>
    exact ⟨task, rest, htasks, .inl ⟨visit?_of_same htasks rfl, rfl, rfl⟩⟩
  | @given task rest _ entry m _ htasks _ hfind hgiven hchosen hname h =>
    refine ⟨task, rest, htasks, ?_⟩
    have hsame : ∀ name, ({ r.agenda with tasks := rest }.meet m.name).find? name =
        r.agenda.find? name := fun name => Agenda.find?_meet _ _ _
    rcases h.visits htasks hname (Agenda.tasks_meet _ _) (by rw [expandedAt, hsame]; rfl) rfl with
      hnone | ⟨v, hvisit, rfl, hnew, _, hfetches, htasks', hserved⟩
    · exact .inl hnone
    · rw [expandedAt, hfind, Option.bind_some] at hnew
      exact .inr ⟨v, hvisit, hname, .given hfind hgiven hchosen hnew, hfetches, htasks', hserved⟩
  | @refused task rest d before _ _ _ htaken _ =>
    refine ⟨task, rest, htaken.first, .inl ⟨visit?_of_same htaken.first ?_, rfl, ?_⟩⟩
    · rw [htaken.expandedAt]
      exact congrArg (Option.bind · Entry.expanded)
        ((htaken.find?_noting task.requirement.name).trans (if_pos rfl))
    · exact Agenda.tasks_recorded _ _ _
  | @picked task rest d before pick cache queries notices m _ htaken hshape hpicked h =>
    refine ⟨task, rest, htaken.first, ?_⟩
    have hname : m.name = task.requirement.name := congrArg PinnedModule.name hshape
    have hfind := htaken.find?_withChosen cache queries notices hname pick m.name
    rw [if_pos hname] at hfind
    have hsame : r.expandedAt m.name = before.expanded := by rw [hname, htaken.expandedAt]
    rcases h.visits htaken.first hname
      (Agenda.tasks_recorded { r.agenda with tasks := rest } task.requirement.name d)
      ((congrArg (Option.bind · Entry.expanded) hfind).trans hsame.symm) rfl with
      hnone | ⟨v, hvisit, rfl, hnew, hchannel, hfetches, htasks, hserved⟩
    · exact .inl hnone
    · rw [Agenda.history_of_find? _ _ hfind] at hchannel
      exact .inr ⟨v, hvisit, hname,
        .picked htaken hshape hpicked (hsame ▸ hnew) hchannel, hfetches, htasks, hserved⟩

theorem Turn.due (h : Turn s r r') (hvisit : visit? r r' = some v) :
    Due s r v ∧ ∃ e, r'.agenda.find? v.module.name = some e ∧ e.expanded = some v.module ∧
      e.history.channel = v.channel := by
  obtain ⟨task, rest, htasks, ⟨hnone, _⟩ | ⟨w, hsome, hname, hdue, _⟩⟩ := h.visits
  · rw [hnone] at hvisit
    cases hvisit
  · obtain rfl := Option.some.inj (hsome.symm.trans hvisit)
    obtain ⟨first, later, e, hfirst, hfind, hleft⟩ := expanded_of_visit? hvisit
    rw [htasks, List.cons.injEq] at hfirst
    obtain ⟨rfl, -⟩ := hfirst
    exact ⟨hdue, e, hname ▸ hfind, hleft⟩

end Visit

section Course

variable {tasks : List Task} {visits : List Visit}

theorem Course.reachable (h : Course s start tasks visits t r) : Reachable s start t r := by
  induction h with
  | initial => exact .initial
  | next _ hactive _ ih => exact .next ih hactive

theorem Reachable.exists_course (h : Reachable s start t r) :
    ∃ tasks visits, Course s start tasks visits t r := by
  induction h with
  | initial => exact ⟨_, _, .initial⟩
  | next _ hactive ih =>
    obtain ⟨tasks, visits, hcourse⟩ := ih
    obtain ⟨_, task, rest, hfirst⟩ := exists_task_of_isActive hactive
    exact ⟨_, _, hcourse.next hactive hfirst⟩

theorem Course.turn (hsound : start.agenda.IsSound) (h : Course s start tasks visits t r)
    (hactive : r.isActive = true) : Turn t r (step t r) := by
  have hnone := (exists_task_of_isActive hactive).1
  exact step_turn (isSound_reachable hsound h.reachable hnone) hactive

/-- The visits of a course account for all fetches and for all requests that were put on the
agenda. -/
theorem Course.accounts (hsound : start.agenda.IsSound) (h : Course s start tasks visits t r) :
    r.fetches = start.fetches ++ visits.map (fun v => v.module.fetch) ∧
      tasks ++ r.agenda.tasks = start.agenda.tasks ++ visits.flatMap Visit.queued ∧
      ∀ v ∈ visits, v.Served s := by
  induction h with
  | initial => simp
  | @next tasks rest task visits t r hcourse hactive hfirst ih =>
    obtain ⟨hfetches, htasks, hserved⟩ := ih
    rw [hfirst] at htasks
    obtain ⟨task', rest', hfirst', hcases⟩ := (hcourse.turn hsound hactive).visits
    rw [hfirst, List.cons.injEq] at hfirst'
    obtain ⟨rfl, rfl⟩ := hfirst'
    rcases hcases with ⟨hvisit, hfetches', htasks'⟩ | ⟨v, hvisit, _, _, hfetches', htasks', hv⟩
    · rw [hvisit, hfetches', htasks', Option.toList_none, List.append_nil, ← htasks]
      exact ⟨hfetches, by simp, hserved⟩
    · rw [hvisit, hfetches', htasks', hfetches, Option.toList_some, List.map_append,
        List.flatMap_append, ← List.append_assoc start.agenda.tasks, ← htasks]
      refine ⟨by simp, by simp, ?_⟩
      intro w hw
      rcases List.mem_append.mp hw with hw | hw
      · exact hserved w hw
      · exact List.mem_singleton.mp hw ▸ hv.of_manifests hcourse.reachable.follows.manifests

end Course

end Run

end ModulePins
