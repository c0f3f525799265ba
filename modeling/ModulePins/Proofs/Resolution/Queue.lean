import Mathlib.Data.List.Basic
import Mathlib.Data.List.Induction
import ModulePins.Proofs.Resolution.Closure
import ModulePins.Proofs.Resolution.Provenance

/-!
# The agenda as a queue

However an agenda is used, it does what a plain plan of work does: a list of tasks that wait, a list
of tasks that were taken, and the modules chosen so far. Entries, histories and the order of names
are what the tasks taken say.
-/

namespace ModulePins

/-- What is done with an agenda: a task is put on it, the first task is taken off, or the module of
an entry is chosen. -/
inductive Call where
  | push (task : Task)
  | pop
  | choose (name : String) (m : PinnedModule)

def Call.pushed? : Call → Option Task
  | push task => some task
  | _ => none

theorem Call.filterMap_pushed?_cons (c : Call) (rest : List Call) :
    (c :: rest).filterMap pushed? = c.pushed?.toList ++ rest.filterMap pushed? := by
  cases h : c.pushed? <;> simp [h]

def Agenda.Popped.item? : Agenda.Popped → Option Item
  | item found _ => some found
  | _ => none

namespace Agenda

/-- Chooses the module of an entry, if there is one. -/
def choose (a : Agenda) (name : String) (m : PinnedModule) : Agenda :=
  if (a.find? name).isSome then a.update name fun e => { e with chosen := some m } else a

def call (a : Agenda) : Call → Agenda
  | .push task => a.push task
  | .pop =>
    match a.pop with
    | .empty => a
    | .broken rest => rest
    | .item _ rest => rest
  | .choose name m => a.choose name m

/-- What a call gives: only taking a task off gives something, an item or nothing. -/
def answer (a : Agenda) : Call → Option (Option Item)
  | .pop => some a.pop.item?
  | _ => none

def calls (a : Agenda) (cs : List Call) : Agenda :=
  cs.foldl call a

def answers (a : Agenda) : List Call → List (Option Item)
  | [] => []
  | c :: rest => (a.answer c).toList ++ (a.call c).answers rest

end Agenda

/-- The demand of a task: a version that is no constraint takes the place of the channel. -/
def Task.demand (task : Task) : Demand :=
  let r := task.requirement
  if r.version ≠ "" ∧ (isConstraint r.version).toOption = some false then
    { constraint := "", channel := r.version, parent := task.parent }
  else { constraint := r.version, channel := r.requestedChannel, parent := task.parent }

theorem Task.demand_eq {task : Task} (h : task.requirement.isReadable = true) :
    Agenda.demand task = .ok task.demand := by
  unfold Agenda.demand Task.demand
  by_cases hempty : task.requirement.version = ""
  · simp [hempty, pure, Except.pure]
  · cases hread : isConstraint task.requirement.version with
    | error fault => simp [Requirement.isReadable, hread] at h
    | ok isRange =>
      cases isRange <;>
        simp [hempty, hread, bind, Except.bind, pure, Except.pure, Except.toOption]

theorem eraseDups_concat (names : List String) (name : String) :
    (names ++ [name]).eraseDups =
      if name ∈ names then names.eraseDups else names.eraseDups ++ [name] := by
  rw [List.eraseDups_append]
  by_cases h : name ∈ names
  · simp [List.removeAll, h]
  · simp [List.removeAll, h, List.eraseDups_cons]

theorem nodup_eraseDups (names : List String) : names.eraseDups.Nodup := by
  induction names using List.reverseRecOn with
  | nil => simp
  | append_singleton names name ih =>
    rw [eraseDups_concat]
    split
    · exact ih
    · rename_i hnot
      refine List.nodup_append.mpr ⟨ih, by simp, ?_⟩
      intro x hx y hy
      rw [List.mem_singleton] at hy
      rintro rfl
      exact hnot (hy ▸ List.mem_eraseDups.mp hx)

/-- A plan of work: what agendas do, without their entries. -/
structure Plan where
  replacements : List (String × String)
  base : Path
  given : List PinnedModule
  waiting : List Task
  taken : List Task := []
  chosen : String → Option PinnedModule

namespace Plan

/-- The given module of a name; of two for one name the later one counts. -/
def givenOf? (p : Plan) (name : String) : Option PinnedModule :=
  p.given.reverse.find? fun m => m.name == name

/-- Where a module is fetched from; of two replacements for one name the later one counts. -/
def uriOf (p : Plan) (name : String) : String :=
  ((p.replacements.reverse.find? fun r => r.1 == name).map fun r =>
    Location.fetchUri r.2 p.base).getD ("https://" ++ name)

/-- The names of the tasks taken, each of them once, in the order of the first tasks for them. -/
def met (p : Plan) : List String :=
  (p.taken.map fun task => task.requirement.name).eraseDups

/-- The demands of the tasks taken for a name, in their order. -/
def historyOf (p : Plan) (name : String) : History :=
  (p.taken.filter fun task => task.requirement.name == name).map Task.demand

def item (p : Plan) (task : Task) : Item where
  name := task.requirement.name
  task := task
  constraint := task.demand.constraint
  channel := task.demand.channel
  uri :=
    if (p.givenOf? task.requirement.name).isSome then none
    else some (p.uriOf task.requirement.name)

/-- The entry of a name: that of a given module has no history, and others have one if a task was
taken for them. -/
def entryOf (p : Plan) (name : String) : Option Entry :=
  match p.givenOf? name with
  | some m => some { Entry.ofGiven m with chosen := p.chosen name }
  | none =>
    if name ∈ p.met then some { history := p.historyOf name, chosen := p.chosen name } else none

/-- The plan at the start, where given modules are chosen. -/
def start (tasks : List Task) (replacements : List (String × String)) (given : List PinnedModule)
    (base : Path) : Plan where
  replacements := replacements
  base := base
  given := given
  waiting := tasks
  chosen name := given.reverse.find? fun m => m.name == name

/-- The plan after a task was taken, while others wait. -/
def took (p : Plan) (task : Task) (rest : List Task) : Plan :=
  { p with waiting := rest, taken := p.taken ++ [task] }

def chose (p : Plan) (name : String) (m : PinnedModule) : Plan :=
  { p with chosen := fun other => if other = name then some m else p.chosen other }

def call (p : Plan) : Call → Plan
  | .push task => { p with waiting := p.waiting ++ [task] }
  | .pop =>
    match p.waiting with
    | [] => p
    | task :: rest => p.took task rest
  | .choose name m => if (p.entryOf name).isSome then p.chose name m else p

def answer (p : Plan) : Call → Option (Option Task)
  | .pop => some p.waiting.head?
  | _ => none

def calls (p : Plan) (cs : List Call) : Plan :=
  cs.foldl call p

def answers (p : Plan) : List Call → List (Option Task)
  | [] => []
  | c :: rest => (p.answer c).toList ++ (p.call c).answers rest

section Laws

variable (p : Plan) (c : Call) (task : Task) (rest : List Task) (name : String)

@[simp]
theorem given_call : (p.call c).given = p.given := by
  cases c with
  | push task => rfl
  | pop =>
    unfold call
    cases p.waiting <;> rfl
  | choose name m =>
    simp only [call]
    split <;> rfl

@[simp]
theorem uriOf_call : (p.call c).uriOf = p.uriOf := by
  cases c with
  | push task => rfl
  | pop =>
    unfold call
    cases p.waiting <;> rfl
  | choose name m =>
    simp only [call]
    split <;> rfl

theorem item_congr {p q : Plan} (hgiven : p.given = q.given) (huri : p.uriOf = q.uriOf) :
    p.item = q.item := by
  have hgivenOf : ∀ name, p.givenOf? name = q.givenOf? name := by
    intro name
    rw [givenOf?, hgiven, givenOf?]
  funext task
  simp only [item, hgivenOf, huri]

@[simp]
theorem item_call : (p.call c).item = p.item :=
  item_congr (p.given_call c) (p.uriOf_call c)

theorem chosen_took : (p.took task rest).chosen = p.chosen := rfl

theorem givenOf?_took : (p.took task rest).givenOf? name = p.givenOf? name := rfl

theorem historyOf_took :
    (p.took task rest).historyOf name =
      p.historyOf name ++ if task.requirement.name = name then [task.demand] else [] := by
  by_cases h : task.requirement.name = name <;> simp [historyOf, took, h]

theorem met_took :
    (p.took task rest).met =
      if task.requirement.name ∈ p.met then p.met else p.met ++ [task.requirement.name] := by
  simp only [met, took, List.map_append, List.map_cons, List.map_nil, eraseDups_concat,
    List.mem_eraseDups]

theorem mem_met_took {name : String} :
    name ∈ (p.took task rest).met ↔ name ∈ p.met ∨ name = task.requirement.name := by
  simp [met, took]

theorem historyOf_eq_nil {p : Plan} {name : String} (h : name ∉ p.met) : p.historyOf name = [] := by
  simp only [met, List.mem_eraseDups, List.mem_map, not_exists, not_and] at h
  simpa [historyOf] using h

theorem entryOf_took_of_ne {name : String} (h : name ≠ task.requirement.name) :
    (p.took task rest).entryOf name = p.entryOf name := by
  simp [entryOf, chosen_took, givenOf?_took, historyOf_took, mem_met_took, h, Ne.symm h]

theorem entryOf_took_of_given {m : PinnedModule} (hgiven : p.givenOf? name = some m) :
    (p.took task rest).entryOf name = p.entryOf name := by
  simp [entryOf, chosen_took, givenOf?_took, hgiven]

theorem calls_append (cs more : List Call) : p.calls (cs ++ more) = (p.calls cs).calls more :=
  List.foldl_append

theorem given_calls (cs : List Call) : (p.calls cs).given = p.given := by
  induction cs generalizing p with
  | nil => rfl
  | cons c rest ih => rw [calls, List.foldl_cons, ← calls, ih, given_call]

theorem uriOf_calls (cs : List Call) : (p.calls cs).uriOf = p.uriOf := by
  induction cs generalizing p with
  | nil => rfl
  | cons c rest ih => rw [calls, List.foldl_cons, ← calls, ih, uriOf_call]

theorem mem_waiting_call (h : task ∈ (p.call c).waiting) :
    task ∈ p.waiting ++ c.pushed?.toList := by
  cases c with
  | push other => exact h
  | pop =>
    unfold call at h
    cases hwaiting : p.waiting with
    | nil => simp [hwaiting] at h
    | cons first others =>
      rw [hwaiting] at h
      exact List.mem_append_left _ (List.mem_cons_of_mem _ h)
  | choose name m =>
    simp only [call] at h
    split at h <;> exact List.mem_append_left _ h

theorem taken_append_waiting_call :
    (p.call c).taken ++ (p.call c).waiting = p.taken ++ p.waiting ++ c.pushed?.toList := by
  cases c with
  | push other => simp [call, Call.pushed?]
  | pop =>
    unfold call
    cases hwaiting : p.waiting <;> simp [hwaiting, took, Call.pushed?]
  | choose name m =>
    simp only [call]
    split <;> simp [chose, Call.pushed?]

theorem taken_call : (p.call c).taken = p.taken ++ (p.answer c).toList.filterMap id := by
  cases c with
  | push other => simp [call, answer]
  | pop =>
    unfold call answer
    cases hwaiting : p.waiting <;> simp [took]
  | choose name m =>
    simp only [call, answer]
    split <;> simp [chose]

/-- No task is lost, taken twice or out of its turn. -/
theorem taken_append_waiting (cs : List Call) :
    (p.calls cs).taken ++ (p.calls cs).waiting =
      p.taken ++ p.waiting ++ cs.filterMap Call.pushed? := by
  induction cs generalizing p with
  | nil => simp [calls]
  | cons c rest ih =>
    rw [calls, List.foldl_cons, ← calls, ih, Call.filterMap_pushed?_cons,
      taken_append_waiting_call, List.append_assoc]

theorem taken_calls (cs : List Call) :
    (p.calls cs).taken = p.taken ++ (p.answers cs).filterMap id := by
  induction cs generalizing p with
  | nil => simp [calls, answers]
  | cons c rest ih =>
    rw [calls, List.foldl_cons, ← calls, ih, answers, List.filterMap_append, taken_call,
      List.append_assoc]

theorem entryOf_chose (m : PinnedModule) (other : String) :
    (p.chose name m).entryOf other =
      if other = name then (p.entryOf name).map fun e => { e with chosen := some m }
      else p.entryOf other := by
  have hgiven : (p.chose name m).givenOf? other = p.givenOf? other := rfl
  have hhistory : (p.chose name m).historyOf other = p.historyOf other := rfl
  have hmet : (p.chose name m).met = p.met := rfl
  have hchosen : (p.chose name m).chosen other = if other = name then some m else p.chosen other :=
    rfl
  unfold entryOf
  rw [hgiven, hhistory, hmet, hchosen]
  by_cases hother : other = name
  · subst hother
    cases p.givenOf? other with
    | some given => simp
    | none => by_cases hmem : other ∈ p.met <;> simp [hmem]
  · simp only [if_neg hother]

end Laws

end Plan

theorem lookup_map_find? {α β : Type} (key : α → String) (f : α → β) (xs : List α) (name : String) :
    (xs.map fun x => (key x, f x)).lookup name = (xs.find? fun x => key x == name).map f := by
  induction xs with
  | nil => rfl
  | cons x xs ih =>
    by_cases h : name = key x
    · simp [h]
    · have hbeq : (name == key x) = false := by simpa using h
      have hbeq' : (key x == name) = false := by simpa using Ne.symm h
      simp [List.lookup_cons, hbeq, hbeq', ih]

namespace Ledger

variable {α : Type}

theorem map_fst_putIn (name : String) (a : α) (entries : List (String × α)) :
    (putIn name a entries).map Prod.fst =
      if name ∈ entries.map Prod.fst then entries.map Prod.fst
      else entries.map Prod.fst ++ [name] := by
  induction entries with
  | nil => simp [putIn]
  | cons head rest ih =>
    obtain ⟨k, b⟩ := head
    by_cases h : name = k
    · simp [putIn, h]
    · rw [putIn, if_neg h, List.map_cons, ih]
      by_cases hrest : name ∈ rest.map Prod.fst <;> simp [h, hrest]

theorem names_put (l : Ledger α) (name : String) (a : α) :
    (l.put name a).names = if name ∈ l.names then l.names else l.names ++ [name] :=
  map_fst_putIn name a l.entries

theorem names_ofList (entries : List (String × α)) :
    (ofList entries).names = (entries.map Prod.fst).eraseDups := by
  induction entries using List.reverseRecOn with
  | nil => rfl
  | append_singleton entries entry ih =>
    rw [ofList, List.foldl_append, List.foldl_cons, List.foldl_nil, List.map_append,
      List.map_singleton, eraseDups_concat]
    change (put (ofList entries) _ _).names = _
    simp only [names_put, ih, List.mem_eraseDups]

end Ledger

namespace Agenda

/-- An agenda is as its plan says. -/
structure Follows (a : Agenda) (p : Plan) : Prop where
  tasks : a.tasks = p.waiting
  uri : ∀ name, a.uriOf name = p.uriOf name
  names : a.entries.names =
    (p.given.map PinnedModule.name ++ p.taken.map fun task => task.requirement.name).eraseDups
  find : ∀ name, a.find? name = p.entryOf name
  order : a.order = p.met
  unchosen : ∀ name, p.entryOf name = none → p.chosen name = none

theorem follows_start (tasks : List Task) (replacements : List (String × String))
    (given : List PinnedModule) (base : Path) :
    (start tasks replacements given base).Follows (Plan.start tasks replacements given base) where
  tasks := rfl
  uri := by
    intro name
    simp only [uriOf, start, Ledger.get?_ofList, ← List.map_reverse, Plan.uriOf, Plan.start]
    rw [lookup_map_find? Prod.fst fun r => Location.fetchUri r.2 base]
  names := by
    simp [start, Ledger.names_ofList, Plan.start, Function.comp_def]
  find := by
    intro name
    simp only [find?, start, Ledger.get?_ofList, ← List.map_reverse]
    rw [lookup_map_find? PinnedModule.name Entry.ofGiven]
    unfold Plan.entryOf Plan.givenOf? Plan.start
    dsimp only
    cases given.reverse.find? fun m => m.name == name with
    | none => simp [Plan.met]
    | some m => simp [Entry.ofGiven]
  order := by simp [start, Plan.met, Plan.start]
  unchosen := by
    intro name hnone
    unfold Plan.entryOf at hnone
    split at hnone
    · cases hnone
    · assumption

theorem Follows.push {a : Agenda} {p : Plan} (h : a.Follows p) (task : Task) :
    (a.push task).Follows (p.call (.push task)) where
  tasks := congrArg (· ++ [task]) h.tasks
  uri := h.uri
  names := h.names
  find := h.find
  order := h.order
  unchosen := h.unchosen

theorem Follows.given_eq {a : Agenda} {p : Plan} (h : a.Follows p) (name : String) :
    ((a.find? name).getD {}).given = (p.givenOf? name).isSome := by
  rw [h.find, Plan.entryOf]
  cases p.givenOf? name with
  | some m => rfl
  | none => by_cases hmet : name ∈ p.met <;> simp [hmet]

theorem order_meet (a : Agenda) (name : String) :
    (a.meet name).order = if name ∈ a.order then a.order else a.order ++ [name] := by
  unfold meet
  by_cases h : name ∈ a.order <;> simp [h]

theorem Follows.names_took_of_given {a : Agenda} {p : Plan} (h : a.Follows p) {task : Task}
    {m : PinnedModule} (hgiven : p.givenOf? task.requirement.name = some m) (rest : List Task) :
    a.entries.names = ((p.took task rest).given.map PinnedModule.name ++
      (p.took task rest).taken.map fun task => task.requirement.name).eraseDups := by
  have hmem : task.requirement.name ∈ p.given.map PinnedModule.name := by
    have hname : m.name = task.requirement.name := by simpa using List.find?_some hgiven
    rw [← hname]
    exact List.mem_map_of_mem (List.mem_reverse.mp (List.mem_of_find?_eq_some hgiven))
  simp only [Plan.took, List.map_append, List.map_cons, List.map_nil, ← List.append_assoc]
  rw [eraseDups_concat, if_pos (List.mem_append_left _ hmem), h.names]

theorem Follows.record_of_given {a : Agenda} {p : Plan} (h : a.Follows p) {task : Task}
    {m : PinnedModule} (hgiven : p.givenOf? task.requirement.name = some m) (rest : List Task) :
    ({ a with tasks := rest }.record task task.demand).1 = p.item task ∧
      ({ a with tasks := rest }.record task task.demand).2.Follows (p.took task rest) := by
  have hentry : (({ a with tasks := rest }.find? task.requirement.name).getD {}).given = true := by
    have hsame := h.given_eq task.requirement.name
    rw [hgiven] at hsame
    exact hsame
  rw [Agenda.record_of_given _ task task.demand hentry]
  refine ⟨?_, ?_⟩
  · simp [Plan.item, hgiven]
  · exact {
      tasks := by simp [Plan.took]
      uri := by
        intro name
        rw [uriOf_congr (replacements_meet _ _)]
        exact h.uri name
      names := by
        rw [entries_meet]
        exact h.names_took_of_given hgiven rest
      find := by
        intro name
        rw [find?_meet]
        by_cases hname : name = task.requirement.name
        · rw [hname, Plan.entryOf_took_of_given _ _ _ _ hgiven]
          exact h.find _
        · rw [Plan.entryOf_took_of_ne _ _ _ hname]
          exact h.find name
      order := by
        rw [order_meet, Plan.met_took, ← h.order]
      unchosen := by
        intro name hnone
        rw [Plan.chosen_took]
        apply h.unchosen
        by_cases hname : name = task.requirement.name
        · rwa [hname, Plan.entryOf_took_of_given _ _ _ _ hgiven, ← hname] at hnone
        · rwa [Plan.entryOf_took_of_ne _ _ _ hname] at hnone }

theorem names_recorded (a : Agenda) (name : String) (d : Demand) :
    (a.recorded name d).entries.names =
      if name ∈ a.entries.names then a.entries.names else a.entries.names ++ [name] := by
  simp only [recorded, update, entries_meet, Ledger.names_put]

theorem Follows.entryOf_took {a : Agenda} {p : Plan} (h : a.Follows p) {task : Task}
    (hgiven : p.givenOf? task.requirement.name = none) (rest : List Task) :
    (p.took task rest).entryOf task.requirement.name =
      some { (a.find? task.requirement.name).getD {} with
        history := ((a.find? task.requirement.name).getD {}).history ++ [task.demand] } := by
  have hchosen := h.unchosen task.requirement.name
  rw [h.find]
  simp only [Plan.entryOf, Plan.givenOf?_took, hgiven, Plan.mem_met_took, or_true, if_true,
    Plan.historyOf_took, Plan.chosen_took] at hchosen ⊢
  by_cases hmet : task.requirement.name ∈ p.met
  · simp [hmet]
  · simp [hmet, hchosen, Plan.historyOf_eq_nil hmet]

theorem Follows.record_of_not_given {a : Agenda} {p : Plan} (h : a.Follows p) {task : Task}
    (hgiven : p.givenOf? task.requirement.name = none) (rest : List Task) :
    ({ a with tasks := rest }.record task task.demand).1 = p.item task ∧
      ({ a with tasks := rest }.record task task.demand).2.Follows (p.took task rest) := by
  have hentry : (({ a with tasks := rest }.find? task.requirement.name).getD {}).given = false := by
    have hsame := h.given_eq task.requirement.name
    rw [hgiven] at hsame
    exact hsame
  rw [Agenda.record_of_not_given _ task task.demand hentry]
  refine ⟨?_, ?_⟩
  · have huri : ({ a with tasks := rest } : Agenda).uriOf task.requirement.name =
        p.uriOf task.requirement.name := h.uri _
    simp [Plan.item, hgiven, huri]
  · exact {
      tasks := by simp [Plan.took]
      uri := by
        intro name
        rw [uriOf_congr (replacements_recorded _ _ _)]
        exact h.uri name
      names := by
        simp only [names_recorded, h.names, Plan.took, List.map_append, List.map_cons, List.map_nil,
          ← List.append_assoc, eraseDups_concat, List.mem_eraseDups]
      find := by
        intro name
        rw [find?_recorded]
        by_cases hname : name = task.requirement.name
        · rw [if_pos hname, hname, h.entryOf_took hgiven rest]
          rfl
        · rw [if_neg hname, Plan.entryOf_took_of_ne _ _ _ hname]
          exact h.find name
      order := by
        rw [order_recorded, order_meet, Plan.met_took, ← h.order]
      unchosen := by
        intro name hnone
        rw [Plan.chosen_took]
        apply h.unchosen
        by_cases hname : name = task.requirement.name
        · rw [hname, h.entryOf_took hgiven rest] at hnone
          cases hnone
        · rwa [Plan.entryOf_took_of_ne _ _ _ hname] at hnone }

theorem Follows.pop {a : Agenda} {p : Plan} (h : a.Follows p)
    (hreadable : ∀ task ∈ p.waiting, task.requirement.isReadable = true) :
    a.pop.item? = p.waiting.head?.map p.item ∧ (a.call .pop).Follows (p.call .pop) := by
  have htasks := h.tasks
  cases hwaiting : p.waiting with
  | nil =>
    rw [hwaiting] at htasks
    have hpop : a.pop = .empty := by simp [Agenda.pop, htasks]
    refine ⟨by simp [hpop, Popped.item?], ?_⟩
    simpa [call, Plan.call, hpop, hwaiting] using h
  | cons task rest =>
    rw [hwaiting] at htasks
    have hdemand := Task.demand_eq (hreadable task (hwaiting ▸ List.mem_cons_self))
    have hpop : a.pop = .item ({ a with tasks := rest }.record task task.demand).1
        ({ a with tasks := rest }.record task task.demand).2 := by
      simp [Agenda.pop, htasks, hdemand]
    have hrecord : ({ a with tasks := rest }.record task task.demand).1 = p.item task ∧
        ({ a with tasks := rest }.record task task.demand).2.Follows (p.took task rest) := by
      cases hgiven : p.givenOf? task.requirement.name with
      | some m => exact h.record_of_given hgiven rest
      | none => exact h.record_of_not_given hgiven rest
    refine ⟨by simp [hpop, Popped.item?, hrecord.1], ?_⟩
    simpa [call, Plan.call, hpop, hwaiting] using hrecord.2

theorem Follows.choose {a : Agenda} {p : Plan} (h : a.Follows p) (name : String)
    (m : PinnedModule) : (a.choose name m).Follows (p.call (.choose name m)) := by
  cases hentry : p.entryOf name with
  | none =>
    have hfind := (h.find name).trans hentry
    simpa [Agenda.choose, Plan.call, hfind, hentry] using h
  | some entry =>
    have hfind := (h.find name).trans hentry
    have hmem : name ∈ a.entries.names := (Ledger.mem_names _ _).mpr ⟨entry, hfind⟩
    simp only [Agenda.choose, Plan.call, hfind, hentry, Option.isSome_some, if_true]
    exact {
      tasks := h.tasks
      uri := h.uri
      names := by
        rw [update, Ledger.names_put, if_pos hmem]
        exact h.names
      find := by
        intro other
        rw [find?_update, Plan.entryOf_chose, hfind, hentry]
        split
        · rfl
        · exact h.find other
      order := h.order
      unchosen := by
        intro other hnone
        rw [Plan.entryOf_chose, hentry] at hnone
        split at hnone
        · cases hnone
        · rename_i hother
          exact (if_neg hother).trans (h.unchosen other hnone) }

theorem Follows.call {a : Agenda} {p : Plan} (h : a.Follows p) (c : Call)
    (hreadable : ∀ task ∈ p.waiting, task.requirement.isReadable = true) :
    (a.call c).Follows (p.call c) ∧ a.answer c = (p.answer c).map (Option.map p.item) := by
  cases c with
  | push task => exact ⟨h.push task, rfl⟩
  | pop =>
    obtain ⟨hitem, hnext⟩ := h.pop hreadable
    exact ⟨hnext, congrArg some hitem⟩
  | choose name m => exact ⟨h.choose name m, rfl⟩

/-- An agenda that follows a plan goes on to do so, and answers as the plan does. -/
theorem Follows.calls {a : Agenda} {p : Plan} (h : a.Follows p) {cs : List Call}
    (hreadable : ∀ task ∈ p.waiting ++ cs.filterMap Call.pushed?,
      task.requirement.isReadable = true) :
    (a.calls cs).Follows (p.calls cs) ∧
      a.answers cs = (p.answers cs).map (Option.map p.item) := by
  induction cs generalizing a p with
  | nil => exact ⟨h, rfl⟩
  | cons c rest ih =>
    obtain ⟨hnext, hanswer⟩ := h.call c fun task ht => hreadable task (List.mem_append_left _ ht)
    have hrest : ∀ task ∈ (p.call c).waiting ++ rest.filterMap Call.pushed?,
        task.requirement.isReadable = true := by
      intro task ht
      apply hreadable
      rw [Call.filterMap_pushed?_cons]
      rcases List.mem_append.mp ht with ht | ht
      · rw [← List.append_assoc]
        exact List.mem_append_left _ (p.mem_waiting_call c task ht)
      · exact List.mem_append_right _ (List.mem_append_right _ ht)
    obtain ⟨hlast, hanswers⟩ := ih hnext hrest
    refine ⟨hlast, ?_⟩
    rw [answers, Plan.answers, hanswer, hanswers, Plan.item_call, List.map_append]
    cases p.answer c <;> rfl

theorem Follows.resolved {a : Agenda} {p : Plan} (h : a.Follows p) :
    a.resolved = p.met.filterMap p.chosen := by
  unfold Agenda.resolved
  rw [h.order]
  refine List.filterMap_congr ?_
  intro name hmet
  rw [h.find, Plan.entryOf]
  cases p.givenOf? name with
  | some m => rfl
  | none =>
    rw [if_pos hmet]
    rfl

theorem Follows.history {a : Agenda} {p : Plan} (h : a.Follows p) (name : String) :
    a.history name = if (p.givenOf? name).isSome then [] else p.historyOf name := by
  rw [Agenda.history, h.find, Plan.entryOf]
  cases p.givenOf? name with
  | some m => rfl
  | none =>
    by_cases hmet : name ∈ p.met
    · simp [hmet]
    · simp [hmet, Plan.historyOf_eq_nil hmet]

/-- Entries stay where they are. -/
theorem Follows.names_prefix {a b : Agenda} {p q : Plan} (ha : a.Follows p) (hb : b.Follows q)
    (hgiven : p.given = q.given) (htaken : p.taken <+: q.taken) :
    a.entries.names <+: b.entries.names := by
  obtain ⟨more, hmore⟩ := htaken
  rw [ha.names, hb.names, hgiven, ← hmore, List.map_append, ← List.append_assoc]
  exact ⟨_, List.eraseDups_append.symm⟩

/-- An agenda does what its plan does, whatever is done with it. What is taken off are the tasks
that were there and those put on it, in this order and each of them once; every name has one entry,
which stays where it is; histories are the demands of the tasks taken, and are empty for given
modules. -/
theorem calls_follow_plan {tasks : List Task} {replacements : List (String × String)}
    {given : List PinnedModule} {base : Path} {cs : List Call}
    (hreadable : ∀ task ∈ tasks ++ cs.filterMap Call.pushed?,
      task.requirement.isReadable = true)
    {a : Agenda} (ha : a = (start tasks replacements given base).calls cs)
    {p : Plan} (hp : p = (Plan.start tasks replacements given base).calls cs) :
    a.Follows p ∧
      (start tasks replacements given base).answers cs =
        ((Plan.start tasks replacements given base).answers cs).map (Option.map p.item) ∧
      ((start tasks replacements given base).answers cs).filterMap id = p.taken.map p.item ∧
      p.taken ++ a.tasks = tasks ++ cs.filterMap Call.pushed? ∧
      a.tasks.length = (tasks ++ cs.filterMap Call.pushed?).length - p.taken.length ∧
      a.entries.names.Nodup ∧
      (∀ before, before <+: cs →
        ((start tasks replacements given base).calls before).entries.names <+: a.entries.names) ∧
      (∀ name, a.history name = if (p.givenOf? name).isSome then [] else p.historyOf name) ∧
      a.resolved = p.met.filterMap p.chosen ∧ p.met.Nodup := by
  have hstart := follows_start tasks replacements given base
  have hrun := hstart.calls hreadable
  -- No call changes what is given or where modules are fetched from, so the items can be told from
  -- the first plan as well as from the last.
  have hgiven : ∀ cs, ((Plan.start tasks replacements given base).calls cs).given = given :=
    (Plan.start tasks replacements given base).given_calls
  have hitem : p.item = (Plan.start tasks replacements given base).item := by
    rw [hp]
    exact Plan.item_congr (Plan.given_calls _ cs) (Plan.uriOf_calls _ cs)
  have hconserved : p.taken ++ p.waiting = tasks ++ cs.filterMap Call.pushed? := by
    rw [hp]
    exact Plan.taken_append_waiting _ cs
  have htaken : p.taken = ((Plan.start tasks replacements given base).answers cs).filterMap id := by
    rw [hp]
    exact Plan.taken_calls _ cs
  have hfollows : a.Follows p := ha ▸ hp ▸ hrun.1
  refine ⟨hfollows, hitem ▸ hrun.2, ?_, ?_, ?_, ?_, ?_, hfollows.history, hfollows.resolved,
    nodup_eraseDups _⟩
  · rw [hrun.2, htaken, hitem, List.map_filterMap, List.filterMap_map]
    rfl
  · rw [hfollows.tasks, hconserved]
  · rw [← hconserved, hfollows.tasks, List.length_append, Nat.add_sub_cancel_left]
  · rw [hfollows.names]
    exact nodup_eraseDups _
  · rintro before ⟨after, hafter⟩
    have hsome : ∀ task ∈ tasks ++ before.filterMap Call.pushed?,
        task.requirement.isReadable = true := by
      intro task ht
      apply hreadable
      rw [← hafter, List.filterMap_append, ← List.append_assoc]
      exact List.mem_append_left _ ht
    have hbefore := (hstart.calls hsome).1
    refine hbefore.names_prefix hfollows (by rw [hp, hgiven, hgiven]) ?_
    rw [hp, ← hafter, Plan.calls_append, Plan.taken_calls _ after]
    exact List.prefix_append _ _

/-- A replacement for `a` in the working folder, a module `c` that is given, and a branch of `b`. -/
def mixedTasks : List Task :=
  [{ requirement := { name := "a", version := "^1.0.0" }, parent := "svc (top-level)" },
    { requirement := { name := "b", version := "main" }, parent := "svc (top-level)" }]

def mixedBase : Path :=
  Path.read "/src".toList

def mixedGiven : List PinnedModule :=
  [{ name := "c", uri := "file:///src/c", version := "local", mutable := true }]

def mixedPick : PinnedModule :=
  { name := "a", uri := "file:///src/a", version := "1.2.0" }

def mixedCalls : List Call :=
  [.pop, .choose "a" mixedPick,
    .push { requirement := { name := "c", version := ">=2.0.0" }, parent := "a@1.2.0" },
    .push { requirement := { name := "a", version := "<2.0.0" }, parent := "a@1.2.0" },
    .pop, .pop, .pop, .pop]

theorem calls_follow_plan_mixed : ∃ a : Agenda,
    a = (start mixedTasks [("a", "./a")] mixedGiven mixedBase).calls mixedCalls ∧ a.tasks = [] ∧
      a.uriOf "a" = "file:///src/a" ∧
      a.history "a" =
        [{ constraint := "^1.0.0", channel := "", parent := "svc (top-level)" },
          { constraint := "<2.0.0", channel := "", parent := "a@1.2.0" }] ∧
      a.history "b" = [{ constraint := "", channel := "main", parent := "svc (top-level)" }] ∧
      a.history "c" = [] ∧ a.resolved = mixedPick :: mixedGiven := by
  have hreadable : ∀ task ∈ mixedTasks ++ mixedCalls.filterMap Call.pushed?,
      task.requirement.isReadable = true := by decide +kernel
  have ha : (start mixedTasks [("a", "./a")] mixedGiven mixedBase).calls mixedCalls =
      (start mixedTasks [("a", "./a")] mixedGiven mixedBase).calls mixedCalls := rfl
  obtain ⟨hfollows, _, _, _, _, _, _, hhistory, hresolved, _⟩ := calls_follow_plan hreadable ha rfl
  refine ⟨_, rfl, ?_, ?_, ?_, ?_, ?_, ?_⟩
  · rw [hfollows.tasks]
    decide +kernel
  · rw [hfollows.uri]
    decide +kernel
  · rw [hhistory]
    decide +kernel
  · rw [hhistory]
    decide +kernel
  · rw [hhistory]
    decide +kernel
  · rw [hresolved]
    decide +kernel

end Agenda

end ModulePins
