import ModulePins.Proofs.Refusal
import ModulePins.Proofs.Resolution.Queue
import ModulePins.Proofs.Resolution.Settled

/-!
# Where items are fetched from

No call changes which modules are given or what the others are replaced by, so all items of a module
have the same locator. A module that is replaced by a bare path is fetched from the folder of this
path.
-/

namespace ModulePins

namespace Agenda

variable {a b : Agenda} {base : Path} {tasks : List Task} {replacements : List (String × String)}
variable {given : List PinnedModule} {name place : String}

/-! ### Calls keep locators -/

def isGiven (a : Agenda) (name : String) : Bool :=
  ((a.find? name).getD {}).given

/-- Where the items of a module are fetched from; those of given modules are not. -/
def uri? (a : Agenda) (name : String) : Option String :=
  if a.isGiven name then none else some (a.uriOf name)

theorem uri?_congr (hgiven : a.isGiven name = b.isGiven name)
    (hreplacements : a.replacements = b.replacements) : a.uri? name = b.uri? name := by
  rw [uri?, uri?, hgiven, uriOf_congr hreplacements]

theorem uri?_meet (a : Agenda) (met name : String) : (a.meet met).uri? name = a.uri? name :=
  uri?_congr (by rw [isGiven, find?_meet, isGiven]) (a.replacements_meet met)

/-- A change of an entry does no harm unless it makes the module a given one. -/
theorem uri?_update (a : Agenda) (changed name : String) {f : Entry → Entry}
    (h : ∀ e, (f e).given = e.given) : (a.update changed f).uri? name = a.uri? name := by
  refine uri?_congr ?_ (a.replacements_update changed f)
  rw [isGiven, find?_update, isGiven]
  split
  · rename_i hname
    rw [Option.getD_some, h, hname]
  · rfl

theorem uri?_recorded (a : Agenda) (noted name : String) (d : Demand) :
    (a.recorded noted d).uri? name = a.uri? name := by
  rw [recorded, uri?_update, uri?_meet]
  exact fun _ => rfl

theorem uri?_record (a : Agenda) (task : Task) (d : Demand) (name : String) :
    (a.record task d).2.uri? name = a.uri? name := by
  cases hgiven : ((a.find? task.requirement.name).getD {}).given with
  | true => rw [record_of_given a task d hgiven, uri?_meet]
  | false =>
    rw [record_of_not_given a task d hgiven]
    exact uri?_recorded a task.requirement.name name d

theorem uri_record (a : Agenda) (task : Task) (d : Demand) :
    (a.record task d).1.uri = a.uri? (a.record task d).1.name := by
  cases hgiven : ((a.find? task.requirement.name).getD {}).given with
  | true =>
    rw [record_of_given a task d hgiven]
    exact (if_pos hgiven).symm
  | false =>
    rw [record_of_not_given a task d hgiven]
    exact (if_neg (by simp [isGiven, hgiven])).symm

theorem uri?_call (a : Agenda) (c : Call) (name : String) : (a.call c).uri? name = a.uri? name := by
  cases c with
  | push task => rfl
  | pop =>
    cases htasks : a.tasks with
    | nil => simp [call, pop, htasks]
    | cons task rest =>
      cases hdemand : demand task with
      | error fault =>
        simp only [call, pop, htasks, hdemand]
        rfl
      | ok d =>
        simp only [call, pop, htasks, hdemand]
        exact uri?_record { a with tasks := rest } task d name
  | choose chosen m =>
    simp only [call, choose]
    split
    · exact a.uri?_update chosen name fun _ => rfl
    · rfl

theorem uri_of_answer {c : Call} {item : Item} (h : a.answer c = some (some item)) :
    item.uri = a.uri? item.name := by
  cases c with
  | push task => cases h
  | choose chosen m => cases h
  | pop =>
    have hitem : a.pop.item? = some item := Option.some.inj h
    unfold pop at hitem
    cases htasks : a.tasks with
    | nil => simp [htasks, Popped.item?] at hitem
    | cons task rest =>
      cases hdemand : demand task with
      | error fault => simp [htasks, hdemand, Popped.item?] at hitem
      | ok d =>
        simp only [htasks, hdemand, Popped.item?, Option.some.injEq] at hitem
        rw [← hitem]
        exact uri_record { a with tasks := rest } task d

/-- Whatever is done with an agenda, the items of a module are fetched from the same place. -/
theorem uri_of_answers {cs : List Call} {item : Item} (h : some item ∈ a.answers cs) :
    item.uri = a.uri? item.name := by
  induction cs generalizing a with
  | nil => cases h
  | cons c rest ih =>
    obtain hnow | hlater := List.mem_append.mp h
    · exact uri_of_answer (by simpa using hnow)
    · rw [ih hlater, uri?_call]

/-! ### Locators at the start -/

theorem isGiven_start (tasks : List Task) (replacements : List (String × String))
    (given : List PinnedModule) (base : Path) (name : String) :
    (start tasks replacements given base).isGiven name =
      decide (name ∈ given.map PinnedModule.name) := by
  rw [isGiven]
  cases hfind : (start tasks replacements given base).find? name with
  | none =>
    have hname := (find?_start_eq_none_iff name tasks replacements given base).mp hfind
    exact (decide_eq_false hname).symm
  | some e =>
    obtain ⟨m, hm, rfl, rfl⟩ := find?_start name tasks replacements given base e hfind
    exact (decide_eq_true (List.mem_map_of_mem hm)).symm

theorem uri_of_replaced {cs : List Call} {item : Item}
    (hreplaced : (Ledger.ofList replacements).get? name = some place)
    (h : some item ∈ (start tasks replacements given base).answers cs)
    (hitem : item.name = name) :
    item.uri = if name ∈ given.map PinnedModule.name then none
      else some (Location.fetchUri place base) := by
  rw [uri_of_answers h, hitem, uri?, isGiven_start, uriOf_start_replaced, hreplaced]
  simp only [decide_eq_true_iff]
  rfl

/-- A module that is replaced by a bare path is fetched from the folder of this path: its items have
a locator that leads there, and a lockfile with this locator is refused. Given modules are not
fetched at all. -/
theorem items_reach_folder (tasks : List Task) (given : List PinnedModule) (hsound : base.IsSound)
    (hrooted : base.IsRooted) (hreplaced : (Ledger.ofList replacements).get? name = some place)
    (hbare : ImportPath.occurs "://".toList place.toList = false) :
    ∃ uri, Location.Reaches uri (base.absolute (Path.read place.toList)) ∧
      (∀ cs item, some item ∈ (start tasks replacements given base).answers cs →
        item.name = name →
        item.uri = if name ∈ given.map PinnedModule.name then none else some uri) ∧
      ∀ lock : Lockfile, (∃ m ∈ lock.modules, m.url = uri) → lock.IsRefused := by
  have hreaches := Location.reaches_fetchUri hsound hrooted hbare
  refine ⟨_, hreaches, fun cs item h hitem => uri_of_replaced hreplaced h hitem, ?_⟩
  rintro lock ⟨m, hm, hurl⟩
  rw [← hurl] at hreaches
  exact lock.isRefused_of_local hm ⟨Location.ne_of_isFileUri hreaches.isFileUri, hreaches.isLocal⟩

/-- A task for a module that is replaced by a path with all the marks that divide locators. -/
def markedTasks : List Task :=
  [{ requirement := { name := "a" }, parent := "svc (top-level)" }]

def markedPlace : String :=
  "../my mods/ä%41?x#y;z"

/-- The item of that task, for a tool at work in `/home/me`. -/
def markedItem : Item where
  name := "a"
  task := { requirement := { name := "a" }, parent := "svc (top-level)" }
  constraint := ""
  channel := ""
  uri := some "file:///home/me/../my%20mods/%C3%A4%2541%3Fx%23y%3Bz"

theorem items_reach_folder_marked :
    (start markedTasks [("a", markedPlace)] [] (Path.read "/home/me".toList)).answers [.pop] =
        [some markedItem] ∧
      ∃ uri, markedItem.uri = some uri ∧
        Location.Reaches uri (Path.read "/home/me/../my mods/ä%41?x#y;z".toList) := by
  have hanswers : (start markedTasks [("a", markedPlace)] []
      (Path.read "/home/me".toList)).answers [.pop] = [some markedItem] := by decide +kernel
  have hplace : (Path.read "/home/me".toList).absolute (Path.read markedPlace.toList) =
      Path.read "/home/me/../my mods/ä%41?x#y;z".toList := by decide +kernel
  have hreplaced : (Ledger.ofList [("a", markedPlace)]).get? "a" = some markedPlace := by
    decide +kernel
  have hbare : ImportPath.occurs "://".toList markedPlace.toList = false := by decide +kernel
  obtain ⟨uri, hreaches, hitems, _⟩ := items_reach_folder markedTasks []
    (Path.isSound_read "/home/me".toList) (by decide +kernel) hreplaced hbare
  refine ⟨hanswers, uri, hitems [.pop] markedItem ?_ rfl, hplace ▸ hreaches⟩
  rw [hanswers]
  exact List.mem_singleton_self _

end Agenda

end ModulePins
