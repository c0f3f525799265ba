import Mathlib.Data.String.Basic
import ModulePins.Lockfile.Printer
import ModulePins.Proofs.Pinning

/-!
# What a lockfile records

The lockfile of a run lists the modules of its result, each once and in the order of their names.
-/

namespace ModulePins.Lockfile

variable {tool : String} {modules : List PinnedModule}

theorem mem_ofModules {locked : LockedModule} :
    locked ∈ (ofModules tool modules).modules ↔ ∃ m ∈ modules, .ofPinned m = locked := by
  simp [ofModules]

theorem nodup_ofModules (h : (modules.map PinnedModule.name).Nodup) :
    ((ofModules tool modules).modules.map LockedModule.name).Nodup := by
  have hperm : ((modules.mergeSort fun a b => a.name ≤ b.name).map PinnedModule.name).Perm
      (modules.map PinnedModule.name) := (List.mergeSort_perm _ _).map _
  rw [ofModules, List.map_map]
  exact hperm.nodup_iff.mpr h

/-- A lockfile holds a version of the tool and exactly the given modules, by name and in the order
of their names. -/
structure Records (lock : Lockfile) (tool : String) (modules : List PinnedModule) : Prop where
  version : lock.version = tool
  perm : lock.modules.Perm (modules.map .ofPinned)
  sorted : lock.modules.Pairwise fun a b => a.name < b.name
  found : ∀ m ∈ modules, lock.module? m.name = some (.ofPinned m)

theorem perm_ofModules (tool : String) (modules : List PinnedModule) :
    (ofModules tool modules).modules.Perm (modules.map .ofPinned) :=
  (List.mergeSort_perm modules _).map _

theorem sorted_ofModules (tool : String) (h : (modules.map PinnedModule.name).Nodup) :
    (ofModules tool modules).modules.Pairwise fun a b => a.name < b.name := by
  have hsorted : (modules.mergeSort fun a b => decide (a.name ≤ b.name)).Pairwise
      fun a b => decide (a.name ≤ b.name) = true :=
    List.pairwise_mergeSort (fun a b c hab hbc => by
      simp only [decide_eq_true_eq] at hab hbc ⊢
      exact le_trans hab hbc) (fun a b => by
      simpa using le_total a.name b.name) modules
  have hle : (ofModules tool modules).modules.Pairwise fun a b => a.name ≤ b.name := by
    rw [ofModules, List.pairwise_map]
    exact hsorted.imp fun hab => of_decide_eq_true hab
  have hnodup : ((ofModules tool modules).modules.map LockedModule.name).Nodup := nodup_ofModules h
  have hne := List.pairwise_map.mp (List.nodup_iff_pairwise_ne.mp hnodup)
  exact hle.imp₂ (fun a b hle hne => lt_of_le_of_ne hle hne) hne

/-- The lockfile of a run records its result. -/
theorem records_ofModules (tool : String) (h : (modules.map PinnedModule.name).Nodup) :
    (ofModules tool modules).Records tool modules where
  version := rfl
  perm := perm_ofModules tool modules
  sorted := sorted_ofModules tool h
  found m hm := Pinning.find?_name (nodup_ofModules h) (mem_ofModules.mpr ⟨m, hm, rfl⟩)

/-- There is only one way to list modules in the order of their names. -/
theorem Records.modules_eq {lock : Lockfile} (h : lock.Records tool modules)
    (hnames : (modules.map PinnedModule.name).Nodup) :
    lock.modules = (ofModules tool modules).modules := by
  have hperm := h.perm.trans (perm_ofModules tool modules).symm
  exact hperm.eq_of_pairwise (fun a b _ _ hab hba => absurd hba (lt_asymm hab)) h.sorted
    (sorted_ofModules tool hnames)

end ModulePins.Lockfile
