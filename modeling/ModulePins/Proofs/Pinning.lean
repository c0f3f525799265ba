import Mathlib.Data.List.Nodup
import ModulePins.Pinning

/-!
# Pinned projects

The requests of a pinned project are for exactly the locked modules, if all of its own requests are
locked. Each of them asks for the locked version, and for no channel.
-/

namespace ModulePins

/-- A requirement that asks for the version of a locked module and for no channel. -/
structure Requirement.Pins (q : Requirement) (m : LockedModule) : Prop where
  name : q.name = m.name
  version : q.version = m.version
  channel : q.requestedChannel = ""

namespace Pinning

variable {p : Project} {lock : Lockfile} {m : LockedModule} {q : Requirement}

def request (m : LockedModule) : Requirement :=
  { name := m.name, version := m.version }

/-- The locked modules that a project does not list. -/
def extra (p : Project) (lock : Lockfile) : List LockedModule :=
  lock.modules.filter fun m => p.modules.all fun q => q.name ≠ m.name

/-- A project pinned to a lockfile that can be used for it. -/
def pinned (p : Project) (lock : Lockfile) : Project :=
  { p with modules := p.modules.map (pin lock) ++ (extra p lock).map request }

theorem make_request (h : m.name ≠ "") : Requirement.make m.name m.version = .ok (request m) := by
  simp [Requirement.make, Requirement.complete, h, Checked.ok, request]

theorem addAll_eq {locked : List LockedModule} (h : ∀ m ∈ locked, m.name ≠ "") (p : Project) :
    addAll locked p = ({ p with modules := p.modules ++ locked.map request }, .ok ()) := by
  induction locked generalizing p with
  | nil => simp [addAll]
  | cons m rest ih =>
    have hrest := ih fun other ho => h other (List.mem_cons_of_mem _ ho)
    simp [addAll, make_request (h m List.mem_cons_self), hrest]

theorem isLocked_iff {name : String} :
    isLocked lock name = true ↔ ∃ m ∈ lock.modules, m.name = name := by
  simp [isLocked]

theorem find?_name {locked : List LockedModule} (hnodup : (locked.map LockedModule.name).Nodup)
    (hm : m ∈ locked) : locked.find? (fun other => other.name == m.name) = some m := by
  cases hfound : locked.find? fun other => other.name == m.name with
  | none => exact absurd (beq_self_eq_true m.name) (List.find?_eq_none.mp hfound m hm)
  | some found =>
    have hname : found.name = m.name := by simpa using List.find?_some hfound
    rw [List.inj_on_of_nodup_map hnodup (List.mem_of_find?_eq_some hfound) hm hname]

theorem versionOf_eq (hnodup : (lock.modules.map LockedModule.name).Nodup)
    (hm : m ∈ lock.modules) : versionOf lock m.name = m.version := by
  have hreverse : (lock.modules.reverse.map LockedModule.name).Nodup := by
    rw [List.map_reverse]
    exact List.nodup_reverse.mpr hnodup
  rw [versionOf, find?_name hreverse (List.mem_reverse.mpr hm)]
  rfl

theorem pins_request (m : LockedModule) : (request m).Pins m where
  name := rfl
  version := rfl
  channel := rfl

theorem pins_pin (hnodup : (lock.modules.map LockedModule.name).Nodup) (hm : m ∈ lock.modules)
    (hname : q.name = m.name) : (pin lock q).Pins m where
  name := hname
  version := by
    rw [pin, hname]
    exact versionOf_eq hnodup hm
  channel := rfl

theorem pins_of_mem (hnodup : (lock.modules.map LockedModule.name).Nodup)
    (hlocked : ∀ q ∈ p.modules, isLocked lock q.name = true) (hq : q ∈ (pinned p lock).modules) :
    ∃ m ∈ lock.modules, q.Pins m := by
  rcases List.mem_append.mp hq with hq | hq
  · obtain ⟨asked, hasked, rfl⟩ := List.mem_map.mp hq
    obtain ⟨m, hm, hname⟩ := isLocked_iff.mp (hlocked asked hasked)
    exact ⟨m, hm, pins_pin hnodup hm hname.symm⟩
  · obtain ⟨m, hm, rfl⟩ := List.mem_map.mp hq
    exact ⟨m, List.mem_of_mem_filter hm, pins_request m⟩

theorem exists_pins (p : Project) (hnodup : (lock.modules.map LockedModule.name).Nodup)
    (hm : m ∈ lock.modules) : ∃ q ∈ (pinned p lock).modules, q.Pins m := by
  by_cases hlisted : ∃ q ∈ p.modules, q.name = m.name
  · obtain ⟨q, hq, hname⟩ := hlisted
    refine ⟨pin lock q, ?_, pins_pin hnodup hm hname⟩
    exact List.mem_append_left _ (List.mem_map_of_mem hq)
  · refine ⟨request m, ?_, pins_request m⟩
    refine List.mem_append_right _ (List.mem_map_of_mem (List.mem_filter.mpr ⟨hm, ?_⟩))
    simpa using hlisted

end Pinning

end ModulePins
