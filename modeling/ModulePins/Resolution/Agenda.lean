import ModulePins.File.Location
import ModulePins.Ledger
import ModulePins.Resolution.Basic
import ModulePins.SemVer.Constraint

/-!
# The agenda of a run

The agenda holds the requests that are still to be dealt with, first come, first served, and an
entry for every module met so far. Taking a request off the agenda records its demand in the entry
of its module, unless the module was given and is used as it is.
-/

namespace ModulePins

/-- A request, and who made it. -/
structure Task where
  requirement : Requirement
  parent : String
  deriving DecidableEq, Repr, Inhabited

/-- What is known about a module. A given module is never resolved. -/
structure Entry where
  history : History := []
  chosen : Option PinnedModule := none
  pick : Option Pick := none
  given : Bool := false
  expanded : Option PinnedModule := none
  deriving DecidableEq, Repr, Inhabited

namespace Entry

/-- The entry of a module that is used as it is. -/
def ofGiven (m : PinnedModule) : Entry :=
  { chosen := some m, pick := some m.pick, given := true }

end Entry

/-- A request taken off the agenda. Given modules are not fetched from anywhere. -/
structure Item where
  name : String
  task : Task
  constraint : String
  channel : String
  uri : Option String
  deriving DecidableEq, Repr, Inhabited

structure Agenda where
  tasks : List Task := []
  replacements : Ledger String := {}
  entries : Ledger Entry := {}
  order : List String := []
  deriving Repr, Inhabited

namespace Agenda

/-- An agenda of first tasks, with other places to fetch modules from and with given modules, for a
tool at work in the folder `base`. -/
def start (tasks : List Task) (replacements : List (String × String)) (given : List PinnedModule)
    (base : Path := .top) : Agenda where
  tasks := tasks
  replacements :=
    .ofList (replacements.map fun (name, uri) => (name, Location.fetchUri uri base))
  entries := .ofList (given.map fun m => (m.name, .ofGiven m))

def push (a : Agenda) (task : Task) : Agenda :=
  { a with tasks := a.tasks ++ [task] }

def find? (a : Agenda) (name : String) : Option Entry :=
  a.entries.get? name

def history (a : Agenda) (name : String) : History :=
  ((a.find? name).map Entry.history).getD []

def uriOf (a : Agenda) (name : String) : String :=
  (a.replacements.get? name).getD ("https://" ++ name)

/-- The demand of a task: a version that is no constraint names a branch, which takes the place of
the channel. -/
def demand (task : Task) : Except RangeFault Demand := do
  let r := task.requirement
  if r.version = "" then
    return { constraint := "", channel := r.requestedChannel, parent := task.parent }
  if ← isConstraint r.version then
    return { constraint := r.version, channel := r.requestedChannel, parent := task.parent }
  else return { constraint := "", channel := r.version, parent := task.parent }

def meet (a : Agenda) (name : String) : Agenda :=
  if a.order.contains name then a else { a with order := a.order ++ [name] }

/-- Records a demand on a module, and gives the item to work on. -/
def record (a : Agenda) (task : Task) (d : Demand) : Item × Agenda :=
  let name := task.requirement.name
  let a := a.meet name
  let entry := (a.find? name).getD {}
  let item (uri : Option String) : Item :=
    { name, task, constraint := d.constraint, channel := d.channel, uri }
  if entry.given then (item none, a)
  else
    (item (some (a.uriOf name)),
      { a with entries := a.entries.put name { entry with history := entry.history ++ [d] } })

inductive Popped where
  | empty
  | broken (rest : Agenda)
  | item (item : Item) (rest : Agenda)

/-- Takes the first task off. A task whose version is a broken range is lost. -/
def pop (a : Agenda) : Popped :=
  match a.tasks with
  | [] => .empty
  | task :: tasks =>
    let rest := { a with tasks }
    match demand task with
    | .error _ => .broken rest
    | .ok d => .item (rest.record task d).1 (rest.record task d).2

def update (a : Agenda) (name : String) (f : Entry → Entry) : Agenda :=
  { a with entries := a.entries.put name (f ((a.find? name).getD {})) }

/-- The chosen modules, in the order in which their names were met. -/
def resolved (a : Agenda) : List PinnedModule :=
  a.order.filterMap fun name => (a.find? name).bind Entry.chosen

section Laws

variable (a : Agenda) (name other : String)

@[simp]
theorem find?_update (f : Entry → Entry) :
    (a.update name f).find? other =
      if other = name then some (f ((a.find? name).getD {})) else a.find? other := by
  simp [update, find?]

@[simp] theorem tasks_update (f : Entry → Entry) : (a.update name f).tasks = a.tasks := rfl

@[simp]
theorem replacements_update (f : Entry → Entry) :
    (a.update name f).replacements = a.replacements := rfl

@[simp]
theorem entries_meet : (a.meet name).entries = a.entries := by
  unfold meet
  split <;> rfl

@[simp]
theorem find?_meet : (a.meet name).find? other = a.find? other := by simp [find?]

@[simp]
theorem tasks_meet : (a.meet name).tasks = a.tasks := by
  unfold meet
  split <;> rfl

@[simp]
theorem replacements_meet : (a.meet name).replacements = a.replacements := by
  unfold meet
  split <;> rfl

@[simp]
theorem mem_order_meet : other ∈ (a.meet name).order ↔ other ∈ a.order ∨ other = name := by
  unfold meet
  split
  · rename_i h
    have hm : name ∈ a.order := by simpa using h
    constructor
    · exact Or.inl
    · rintro (h | rfl)
      · exact h
      · exact hm
  · simp

theorem order_meet_congr (a b : Agenda) (h : a.order = b.order) (name : String) :
    (a.meet name).order = (b.meet name).order := by
  unfold meet
  rw [h]
  split <;> simp [h]

theorem nodup_order_meet (h : a.order.Nodup) : (a.meet name).order.Nodup := by
  unfold meet
  split
  · exact h
  · rename_i hn
    have hm : name ∉ a.order := by simpa using hn
    refine List.nodup_append.mpr ⟨h, by simp, ?_⟩
    intro x hx y hy
    rw [List.mem_singleton] at hy
    rintro rfl
    exact hm (hy ▸ hx)

theorem uriOf_congr {a b : Agenda} (h : a.replacements = b.replacements) (name : String) :
    a.uriOf name = b.uriOf name := by
  simp [uriOf, h]

theorem history_of_find? {e : Entry} (h : a.find? name = some e) : a.history name = e.history := by
  rw [history, h, Option.map_some, Option.getD_some]

theorem record_of_given (task : Task) (d : Demand)
    (h : ((a.find? task.requirement.name).getD {}).given = true) :
    a.record task d =
      ({ name := task.requirement.name, task, constraint := d.constraint, channel := d.channel,
         uri := none },
        a.meet task.requirement.name) := by
  simp [record, h]

/-- The agenda after a demand on a module that is not given. -/
def recorded (d : Demand) : Agenda :=
  (a.meet name).update name fun e => { e with history := e.history ++ [d] }

@[simp]
theorem tasks_recorded (d : Demand) : (a.recorded name d).tasks = a.tasks := by simp [recorded]

@[simp]
theorem replacements_recorded (d : Demand) :
    (a.recorded name d).replacements = a.replacements := by simp [recorded]

@[simp]
theorem order_recorded (d : Demand) : (a.recorded name d).order = (a.meet name).order := rfl

theorem find?_recorded (d : Demand) :
    (a.recorded name d).find? other =
      if other = name then
        some { (a.find? name).getD {} with
          history := ((a.find? name).getD {}).history ++ [d] }
      else a.find? other := by
  simp [recorded]

theorem record_of_not_given (task : Task) (d : Demand)
    (h : ((a.find? task.requirement.name).getD {}).given = false) :
    a.record task d =
      ({ name := task.requirement.name, task, constraint := d.constraint, channel := d.channel,
         uri := some (a.uriOf task.requirement.name) },
        a.recorded task.requirement.name d) := by
  simp [record, h, recorded, update, uriOf]

theorem find?_start (tasks : List Task) (replacements : List (String × String))
    (given : List PinnedModule) (base : Path) (e : Entry)
    (h : (start tasks replacements given base).find? name = some e) :
    ∃ m ∈ given, m.name = name ∧ e = .ofGiven m := by
  simp only [start, find?, Ledger.get?_ofList] at h
  obtain ⟨_, _, hsplit, _⟩ := List.lookup_eq_some_iff.mp h
  have hmem : (name, e) ∈ (given.map fun m => (m.name, Entry.ofGiven m)).reverse := by
    rw [hsplit]
    simp
  obtain ⟨m, hm, he⟩ := List.mem_map.mp (List.mem_reverse.mp hmem)
  obtain ⟨rfl, rfl⟩ := Prod.mk.inj he
  exact ⟨m, hm, rfl, rfl⟩

theorem find?_start_eq_none_iff (tasks : List Task) (replacements : List (String × String))
    (given : List PinnedModule) (base : Path) :
    (start tasks replacements given base).find? name = none ↔
      name ∉ given.map PinnedModule.name := by
  rw [find?, start, Ledger.get?_ofList, List.lookup_eq_none_iff]
  simp [ne_comm]

end Laws

end Agenda

end ModulePins
