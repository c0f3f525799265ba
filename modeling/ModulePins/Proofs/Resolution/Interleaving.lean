import Mathlib.Data.List.Basic
import ModulePins.Proofs.Resolution.Halves

/-!
# Projects side by side

Two lists of requirements that lead to different modules in different places may be resolved
together, in any order: the run returns exactly if the runs for each of the lists do, and it gives
each list the modules and the histories that it has by itself.
-/

namespace ModulePins

/-- A list made up of two lists, each in its own order. -/
inductive Interleaving {α : Type} : List α → List α → List α → Prop
  | nil : Interleaving [] [] []
  | left {x : α} {xs ys zs : List α} (h : Interleaving xs ys zs) :
      Interleaving (x :: xs) ys (x :: zs)
  | right {y : α} {xs ys zs : List α} (h : Interleaving xs ys zs) :
      Interleaving xs (y :: ys) (y :: zs)

namespace Interleaving

variable {α : Type} {xs ys zs : List α}

theorem symm (h : Interleaving xs ys zs) : Interleaving ys xs zs := by
  induction h with
  | nil => exact .nil
  | left _ ih => exact .right ih
  | right _ ih => exact .left ih

theorem mem_iff (h : Interleaving xs ys zs) (a : α) : a ∈ zs ↔ a ∈ xs ∨ a ∈ ys := by
  induction h with
  | nil => simp
  | left _ ih => simp [ih, or_assoc]
  | right _ ih => simp [ih, or_left_comm]

theorem filter_eq {f : α → Bool} (h : Interleaving xs ys zs) (hxs : ∀ x ∈ xs, f x = true)
    (hys : ∀ y ∈ ys, f y = false) : zs.filter f = xs := by
  induction h with
  | nil => rfl
  | @left x xs ys zs _ ih =>
    rw [List.filter_cons_of_pos (hxs x List.mem_cons_self),
      ih (fun a ha => hxs a (List.mem_cons_of_mem x ha)) hys]
  | @right y xs ys zs _ ih =>
    have hy : ¬f y = true := by simp [hys y List.mem_cons_self]
    rw [List.filter_cons_of_neg hy, ih hxs fun a ha => hys a (List.mem_cons_of_mem y ha)]

end Interleaving

/-- What may come up for the requirements `asked`: they themselves, and what any version of a module
that comes up lists. -/
inductive Involved (serve : Fetch → Except Failure ModuleManifest) (first : Agenda)
    (asked : List Requirement) : Requirement → Prop
  | asked {q : Requirement} (h : q ∈ asked) : Involved serve first asked q
  | listed {q other : Requirement} {version : String} {manifest : ModuleManifest}
      (h : Involved serve first asked q)
      (hserved : serve { uri := first.placeOf q.name, version } = .ok manifest)
      (hname : manifest.name = q.name) (hother : other ∈ manifest.modules) :
      Involved serve first asked other

/-- On a shelf, requirements that are asked for and come with everything that the manifests of their
modules list are all that may come up. -/
theorem Involved.mem_of_shelf {shelf : Shelf} {first : Agenda} {asked all : List Requirement}
    {q : Requirement} (hasked : ∀ q ∈ asked, q ∈ all)
    (hlisted : ∀ q ∈ all, ∀ item ∈ shelf.items, item.manifest.name = q.name →
      ∀ other ∈ item.manifest.modules, other ∈ all)
    (h : Involved (fun fetch => shelf.manifest fetch.uri fetch.version) first asked q) :
    q ∈ all := by
  induction h with
  | asked h => exact hasked _ h
  | @listed q other _ _ _ hserved hname hother ih =>
    obtain ⟨item, hitem, rfl⟩ := Shelf.exists_item_of_manifest hserved
    exact hlisted q ih item hitem hname other hother

/-- Two lists of requirements that have nothing to do with each other: `p` tells the names that they
involve apart, and modules of theirs are in different places and have picks under different keys. -/
structure Unrelated (serve : Fetch → Except Failure ModuleManifest) (first : Agenda)
    (p : String → Bool) (left right : List Requirement) : Prop where
  inLeft : ∀ q, Involved serve first left q → p q.name = true
  inRight : ∀ q, Involved serve first right q → p q.name = false
  places : ∀ q other, Involved serve first left q → Involved serve first right other →
    first.placeOf q.name ≠ first.placeOf other.name
  keys : ∀ q other, Involved serve first left q → Involved serve first right other →
    Cache.KeysApart (first.lookups q ++ first.lookups other)
  readable : ∀ q, Involved serve first left q ∨ Involved serve first right q → q.isReadable = true

namespace Unrelated

variable {serve : Fetch → Except Failure ModuleManifest} {first : Agenda} {p : String → Bool}
variable {left right : List Requirement}

theorem of_mem (xs ys : List Requirement) (hxs : ∀ q, Involved serve first left q → q ∈ xs)
    (hys : ∀ q, Involved serve first right q → q ∈ ys) (hleft : ∀ q ∈ xs, p q.name = true)
    (hright : ∀ q ∈ ys, p q.name = false)
    (hplaces : ∀ q ∈ xs, ∀ other ∈ ys, first.placeOf q.name ≠ first.placeOf other.name)
    (hkeys : ∀ q ∈ xs, ∀ other ∈ ys, Cache.KeysApart (first.lookups q ++ first.lookups other))
    (hreadable : ∀ q ∈ xs ++ ys, q.isReadable = true) : Unrelated serve first p left right where
  inLeft := fun q hq => hleft q (hxs q hq)
  inRight := fun q hq => hright q (hys q hq)
  places := fun q other hq hother => hplaces q (hxs q hq) other (hys other hother)
  keys := fun q other hq hother => hkeys q (hxs q hq) other (hys other hother)
  readable := fun q hq => hreadable q (List.mem_append.mpr (hq.imp (hxs q) (hys q)))

theorem symm (h : Unrelated serve first p left right) :
    Unrelated serve first (fun name => !p name) right left where
  inLeft := fun q hq => by simp [h.inRight q hq]
  inRight := fun q hq => by simp [h.inLeft q hq]
  places := fun q other hq hother => (h.places other q hother hq).symm
  keys := by
    intro q other hq hother
    refine (h.keys other q hother hq).mono fun place hplace => ?_
    exact List.mem_append.mpr (List.mem_append.mp hplace).symm
  readable := fun q hq => h.readable q hq.symm

theorem divided (h : Unrelated serve first p left right) :
    Run.Divided serve first p fun q =>
      Involved serve first left q ∨ Involved serve first right q where
  listed := by
    rintro q (hq | hq) version manifest hserved hname other hother
    · have hlisted := hq.listed hserved hname hother
      exact ⟨.inl hlisted, (h.inLeft other hlisted).trans (h.inLeft q hq).symm⟩
    · have hlisted := hq.listed hserved hname hother
      exact ⟨.inr hlisted, (h.inRight other hlisted).trans (h.inRight q hq).symm⟩
  readable := h.readable
  apart := by
    rintro q other (hq | hq) (hother | hother) hp hp' place hplace place' hplace' hkey
    · simp [h.inLeft other hother] at hp'
    · have huri := ((h.keys q other hq hother).eq_of_cacheKey (List.mem_append_left _ hplace)
        (List.mem_append_right _ hplace') hkey).1
      rw [Agenda.uri_of_mem_lookups hplace, Agenda.uri_of_mem_lookups hplace'] at huri
      exact h.places q other hq hother huri
    · simp [h.inRight q hq] at hp
    · simp [h.inRight q hq] at hp

end Unrelated

namespace Agenda

variable {p : String → Bool} {left right both : List Requirement}

theorem part_start (hboth : Interleaving left right both) (hleft : ∀ q ∈ left, p q.name = true)
    (hright : ∀ q ∈ right, p q.name = false) (parent : String)
    (replacements : List (String × String)) (given : List PinnedModule) (base : Path) :
    Part p
      (.start (both.map fun requirement => { requirement, parent }) replacements given base)
      (.start (left.map fun requirement => { requirement, parent }) replacements given base) where
  tasks := by
    change _ = (both.map _).filter _
    rw [List.filter_map]
    exact congrArg _ (hboth.filter_eq hleft hright).symm
  order := rfl
  find := fun _ _ => rfl
  replacements := rfl

theorem Part.resolved {a b : Agenda} (h : a.Part p b)
    (hnamed : ∀ name e m, a.find? name = some e → e.chosen = some m → m.name = name) :
    b.resolved = a.resolved.filter fun m => p m.name := by
  unfold Agenda.resolved
  rw [h.order, List.filterMap_filter, List.filter_filterMap]
  refine List.filterMap_congr fun name _ => ?_
  cases hchosen : (a.find? name).bind Entry.chosen with
  | none =>
    cases hp : p name with
    | true => simp [h.find name hp, hchosen]
    | false => simp
  | some m =>
    obtain ⟨e, hfind, hm⟩ := Option.bind_eq_some_iff.mp hchosen
    have hname := hnamed name e m hfind hm
    cases hp : p name with
    | true => simp [h.find name hp, hchosen, hname, hp, Option.filter]
    | false => simp [hname, hp, Option.filter]

end Agenda

namespace Run

variable {s : Surroundings} {start startLeft startRight ended ended' : Run}
variable {serve : Fetch → Except Failure ModuleManifest} {p : String → Bool}
variable {modules modules' : List PinnedModule}

/-- A run ends in a state with a result. -/
structure Returns (s : Surroundings) (start ended : Run) (modules : List PinnedModule) : Prop where
  ends : ∃ limit, finish? s limit start = some ended
  result : ended.outcome = .ok modules

theorem Returns.unique (h : Returns s start ended modules) (h' : Returns s start ended' modules') :
    ended = ended' ∧ modules = modules' := by
  obtain ⟨limit, hrun⟩ := h.ends
  obtain ⟨limit', hrun'⟩ := h'.ends
  obtain ⟨⟨_, hreach⟩, hidle⟩ := reachable_of_finish? hrun'
  have hsame := eq_ended_of_idle hrun hreach hidle
  have hresult := h.result
  rw [hsame, h'.result, Except.ok.injEq] at hresult
  exact ⟨hsame, hresult.symm⟩

theorem returns_of_failure_eq_none {limit : Nat} (hrun : finish? s limit start = some ended)
    (hended : ended.failure = none) : Returns s start ended ended.agenda.resolved where
  ends := ⟨limit, hrun⟩
  result := by rw [outcome, hended]

theorem exists_returns (limit : Nat)
    (h : ((finish? s limit start).bind fun r => r.outcome.toOption) = some modules) :
    ∃ ended, Returns s start ended modules := by
  obtain ⟨ended, hrun, hresult⟩ := exists_returned h
  exact ⟨ended, ⟨limit, hrun⟩, hresult⟩

section Together

variable {project : Project} {left right both : List Requirement} {given : List PinnedModule}
variable {cache : Cache} {base : Path}

theorem within_together (hboth : Interleaving left right both)
    (hstart : Run.start (.project { project with modules := both }) given 1 cache base = .ok start) :
    start.Within start.agenda fun q =>
      Involved serve start.agenda left q ∨ Involved serve start.agenda right q := by
  obtain ⟨_, rfl⟩ := start_ok hstart
  refine within_start Nat.one_pos fun task htask => ?_
  obtain ⟨q, hq, rfl⟩ := List.mem_map.mp htask
  exact ((hboth.mem_iff q).mp hq).imp .asked .asked

theorem part_together {keys : String → Prop} (hboth : Interleaving left right both)
    (hstart : Run.start (.project { project with modules := both }) given 1 cache base = .ok start)
    (hstartLeft :
      Run.start (.project { project with modules := left }) given 1 cache base = .ok startLeft)
    (h : Unrelated serve start.agenda p left right) : Part p keys start startLeft := by
  obtain ⟨_, rfl⟩ := start_ok hstart
  obtain ⟨_, rfl⟩ := start_ok hstartLeft
  have hleft : ∀ q ∈ left, p q.name = true := fun q hq => h.inLeft q (.asked hq)
  have hright : ∀ q ∈ right, p q.name = false := fun q hq => h.inRight q (.asked hq)
  exact
    { agenda := Agenda.part_start hboth hleft hright _ _ _ _
      workers := rfl
      failure := rfl
      cache := .refl _ _ }

/-- If both lists can be resolved together, one of them can be resolved by itself. -/
theorem Returns.exists_left (hclock : s.Standing) (hserve : s.Serves serve)
    (hstateless : s.versions.Stateless) (hboth : Interleaving left right both)
    (hstart : Run.start (.project { project with modules := both }) given 1 cache base = .ok start)
    (hstartLeft :
      Run.start (.project { project with modules := left }) given 1 cache base = .ok startLeft)
    (hunrelated : Unrelated serve start.agenda p left right) (h : Returns s start ended modules) :
    ∃ last, Returns s startLeft last (modules.filter fun m => p m.name) ∧
      ∀ name, p name = true → last.agenda.history name = ended.agenda.history name := by
  obtain ⟨limit, hrun⟩ := h.ends
  obtain ⟨⟨_, hreach⟩, _⟩ := reachable_of_finish? hrun
  obtain ⟨hnone, rfl⟩ := outcome_ok h.result
  obtain ⟨limit', last, hrun', hpart⟩ := exists_ended_part hclock hserve hstateless hunrelated.divided
    (within_together hboth hstart) (part_together hboth hstart hstartLeft hunrelated) hrun hnone
  have hnamed : ∀ name e m, ended.agenda.find? name = some e → e.chosen = some m → m.name = name :=
    fun _ _ _ => name_of_chosen (start_ok hstart).2 hreach hnone
  refine ⟨last, ?_, fun name hname => hpart.agenda.history hname⟩
  rw [← hpart.agenda.resolved hnamed]
  exact returns_of_failure_eq_none hrun' (hpart.failure.trans hnone)

/-- If both lists can be resolved by themselves, they can be resolved together. -/
theorem Returns.exists_together {endedLeft endedRight : Run}
    {modulesLeft modulesRight : List PinnedModule} (hclock : s.Standing)
    (hserve : s.Serves serve) (hstateless : s.versions.Stateless)
    (hboth : Interleaving left right both)
    (hstart : Run.start (.project { project with modules := both }) given 1 cache base = .ok start)
    (hstartLeft :
      Run.start (.project { project with modules := left }) given 1 cache base = .ok startLeft)
    (hstartRight :
      Run.start (.project { project with modules := right }) given 1 cache base = .ok startRight)
    (hunrelated : Unrelated serve start.agenda p left right)
    (h : Returns s startLeft endedLeft modulesLeft)
    (h' : Returns s startRight endedRight modulesRight) :
    ∃ ended modules, Returns s start ended modules := by
  obtain ⟨limit, hrun⟩ := h.ends
  obtain ⟨limit', hrun'⟩ := h'.ends
  have hhalves : Halves s start.agenda
      (fun q => Involved serve start.agenda left q ∨ Involved serve start.agenda right q) p limit
      limit' endedLeft endedRight start :=
    { within := within_together hboth hstart
      own := ⟨startLeft, part_together hboth hstart hstartLeft hunrelated, hrun⟩
      others := ⟨startRight, part_together hboth.symm hstart hstartRight hunrelated.symm, hrun'⟩ }
  obtain ⟨_, ended, hended, hnone⟩ := hhalves.exists_ended hclock hserve hstateless hunrelated.divided
    (outcome_ok h.result).1 (outcome_ok h'.result).1
  exact ⟨ended, _, returns_of_failure_eq_none hended hnone⟩

end Together

/-- Two modules with a dependency each. -/
def twinShelf : Shelf where
  items := [
    { uri := "https://a", manifest := { name := "a", modules := [{ name := "c" }] } },
    { uri := "https://b", manifest := { name := "b", modules := [{ name := "d" }] } },
    { uri := "https://c", manifest := { name := "c" } },
    { uri := "https://d", manifest := { name := "d" } }]

def twinRegistry : Registry where
  tags := ["a", "b", "c", "d"].map fun name => ("https://" ++ name, ["1.0.0"])

def twinProject : Project where
  name := "svc"

def twinStart (requirements : List Requirement) : Run where
  agenda := .start (Goal.project { twinProject with modules := requirements }).tasks [] []
  cache := { root := "/cache" }

def twinModules (names : List String) : List PinnedModule :=
  names.map fun name => { name, uri := "https://" ++ name, version := "1.0.0" }

/-- The names that `a` leads to. -/
def isTwinLeft (name : String) : Bool :=
  name == "a" || name == "c"

theorem twin_returns_left :
    ∃ ended, Returns (.inMemory twinRegistry none twinShelf 0) (twinStart [{ name := "a" }]) ended
      (twinModules ["a", "c"]) := by
  apply exists_returns 10
  decide +kernel

theorem twin_returns_right :
    ∃ ended, Returns (.inMemory twinRegistry none twinShelf 0) (twinStart [{ name := "b" }]) ended
      (twinModules ["b", "d"]) := by
  apply exists_returns 10
  decide +kernel

theorem twin_unrelated :
    Unrelated (fun fetch => twinShelf.manifest fetch.uri fetch.version)
      (twinStart [{ name := "a" }, { name := "b" }]).agenda isTwinLeft [{ name := "a" }]
      [{ name := "b" }] := by
  apply Unrelated.of_mem [{ name := "a" }, { name := "c" }] [{ name := "b" }, { name := "d" }]
  · exact fun q => Involved.mem_of_shelf (by decide) (by decide)
  · exact fun q => Involved.mem_of_shelf (by decide) (by decide)
  · decide
  · decide
  · decide +kernel
  · decide +kernel
  · decide +kernel

end Run

end ModulePins
