import Mathlib
import ModulePins.Proofs.Resolution.Closure
import ModulePins.Proofs.Resolution.Steady

/-!
# Runs end

A module gives up its pick only when it is asked for something new, or when its pick was not what
the version source answers. The rank of a module counts how often this can still happen. New
requests come up only with a module whose rank goes down, so the ranks bound the number of steps of
a run.
-/

namespace ModulePins

/-- One for a requirement for a module that asks for something that a history does not. -/
def History.misses (history : History) (name : String) (q : Requirement) : Nat :=
  if q.name = name ∧ ∀ w ∈ q.wish?, w ∉ history.map Demand.wish then 1 else 0

/-- How many requirements for a module ask for something that a history does not. -/
def History.unasked (history : History) (requirements : List Requirement) (name : String) : Nat :=
  (requirements.map (history.misses name)).sum

/-- Whether a pick stays as long as nothing new is asked for. -/
def Pick.IsFirm (pick : Pick) (s : Surroundings) (history : History) (uri : String) : Prop :=
  pick.mutable = true ∨ s.versions [] (history.query uri) = .ok pick

open Classical in
/-- How often an entry can still give up its pick, or be expanded if its module was given. -/
noncomputable def Entry.rank (e : Entry) (s : Surroundings) (requirements : List Requirement)
    (name uri : String) : Nat :=
  if e.given then if e.expanded = e.chosen then 0 else 1
  else
    2 * e.history.unasked requirements name +
      if ∃ pick, e.pick = some pick ∧ pick.IsFirm s e.history uri then 0 else 1

namespace History

variable {history : History} {d : Demand} {requirements : List Requirement} {name : String}

theorem misses_le_one (history : History) (name : String) (q : Requirement) :
    history.misses name q ≤ 1 := by
  unfold misses
  split <;> simp

theorem misses_append_le (history : History) (d : Demand) (name : String) (q : Requirement) :
    History.misses (history ++ [d]) name q ≤ history.misses name q := by
  by_cases hq : q.name = name ∧ ∀ w ∈ q.wish?, w ∉ history.map Demand.wish
  · rw [misses, misses, if_pos hq]
    split <;> simp
  · rw [misses, misses, if_neg hq, if_neg]
    rintro ⟨hname, hnew⟩
    refine hq ⟨hname, ?_⟩
    intro w hw hold
    exact hnew w hw (by rw [List.map_append]; exact List.mem_append_left _ hold)

theorem unasked_le_length (history : History) (requirements : List Requirement) (name : String) :
    history.unasked requirements name ≤ requirements.length := by
  have hle := List.sum_le_card_nsmul (requirements.map (history.misses name)) 1 (by
    intro n hn
    obtain ⟨q, _, rfl⟩ := List.mem_map.mp hn
    exact history.misses_le_one name q)
  simpa [unasked] using hle

theorem unasked_append_le (history : History) (d : Demand) (requirements : List Requirement)
    (name : String) : History.unasked (history ++ [d]) requirements name ≤
      history.unasked requirements name :=
  List.sum_le_sum fun q _ => history.misses_append_le d name q

theorem unasked_append_lt (hrequired : ∃ q ∈ requirements, q.name = name ∧ q.wish? = some d.wish)
    (hnew : d.wish ∉ history.map Demand.wish) :
    History.unasked (history ++ [d]) requirements name < history.unasked requirements name := by
  apply List.sum_lt_sum _ _ (fun q _ => history.misses_append_le d name q)
  obtain ⟨q, hq, hname, hwish⟩ := hrequired
  refine ⟨q, hq, ?_⟩
  rw [misses, misses, if_neg, if_pos]
  · exact Nat.zero_lt_one
  · refine ⟨hname, ?_⟩
    rintro w hw
    rw [hwish, Option.mem_some_iff] at hw
    exact hw ▸ hnew
  · rintro ⟨_, hnone⟩
    exact hnone d.wish hwish (by simp)

end History

namespace Entry

variable {s : Surroundings} {requirements : List Requirement} {name uri : String}

theorem rank_le (e : Entry) (s : Surroundings) (requirements : List Requirement)
    (name uri : String) : e.rank s requirements name uri ≤ 2 * requirements.length + 1 := by
  have hunasked := e.history.unasked_le_length requirements name
  unfold rank
  split
  · split <;> omega
  · split <;> omega

theorem rank_bounds (s : Surroundings) (requirements : List Requirement) (name uri : String)
    {e : Entry} (hgiven : e.given = false) :
    2 * e.history.unasked requirements name ≤ e.rank s requirements name uri ∧
      e.rank s requirements name uri ≤ 2 * e.history.unasked requirements name + 1 := by
  rw [rank, if_neg (by simp [hgiven])]
  split <;> omega

theorem rank_of_firm {e : Entry} {pick : Pick} (hgiven : e.given = false)
    (hpick : e.pick = some pick) (hfirm : pick.IsFirm s e.history uri) :
    e.rank s requirements name uri = 2 * e.history.unasked requirements name := by
  rw [rank, if_neg (by simp [hgiven]), if_pos ⟨pick, hpick, hfirm⟩, Nat.add_zero]

theorem rank_of_not_firm {e : Entry} (hgiven : e.given = false)
    (hfirm : ∀ pick, e.pick = some pick → ¬pick.IsFirm s e.history uri) :
    e.rank s requirements name uri = 2 * e.history.unasked requirements name + 1 := by
  rw [rank, if_neg (by simp [hgiven]), if_neg]
  rintro ⟨pick, hpick, h⟩
  exact hfirm pick hpick h

end Entry

theorem Pick.IsFirm.append {s : Surroundings} {requirements : List Requirement} {pick : Pick}
    {history : History} {d : Demand} {uri : String} (h : pick.IsFirm s history uri)
    (hs : s.Steady requirements) (hwish : d.wish ∈ history.map Demand.wish) :
    pick.IsFirm s (history ++ [d]) uri := by
  rcases h with hmutable | hanswer
  · exact .inl hmutable
  · exact .inr (hs.versions_append [] [] hwish hanswer)

namespace Run

variable {s : Surroundings} {r r' : Run} {requirements : List Requirement} {first : Agenda}

/-- The rank of a module in a run. -/
noncomputable def rank (s : Surroundings) (requirements : List Requirement) (first : Agenda)
    (r : Run) (name : String) : Nat :=
  ((r.agenda.find? name).getD {}).rank s requirements name (first.uriOf name)

/-- The sum of the ranks of all modules that are required. -/
noncomputable def potential (s : Surroundings) (requirements : List Requirement) (first : Agenda)
    (r : Run) : Nat :=
  (requirements.map fun q => r.rank s requirements first q.name).sum

/-- A bound on the steps that are left to a run. -/
noncomputable def remaining (s : Surroundings) (requirements : List Requirement) (first : Agenda)
    (r : Run) : Nat :=
  r.potential s requirements first * (requirements.length + 1) + r.agenda.tasks.length

/-- When a module is asked for what it was asked for before, its pick stays, or what was no answer
of the version source gives way to one. -/
theorem Picked.same_or_firm {cache after : Cache} {asked queries : List Query} {name uri : String}
    {history : History} {d : Demand} {old pick : Pick} (hs : s.Steady requirements)
    (hwish : d.wish ∈ history.map Demand.wish)
    (hsettled : Settled s requirements cache name uri history old)
    (h : Picked s cache asked uri (some old) (history ++ [d]) pick after queries)
    (hdeclared : s.Declares name { uri, version := pick.tag }) :
    pick = old ∨ ¬old.IsFirm s history uri ∧ pick.IsFirm s (history ++ [d]) uri := by
  cases h with
  | stays hbefore _ => exact .inl (Option.some.inj hbefore.symm)
  | here hbefore hlocal =>
    have hremote := hsettled.remote (hbefore old rfl)
    simp [hlocal] at hremote
  | cached hbefore _ hget _ =>
    rw [History.channel_append_of_wish hwish] at hget
    rcases hsettled.kept (hbefore old rfl) s.now pick hget with hsame | hother
    · exact .inl hsame
    · exact absurd hdeclared hother
  | asked hbefore _ _ _ hanswer _ =>
    by_cases hsame : pick = old
    · exact .inl hsame
    refine .inr ⟨?_, .inr ((hs.versions asked [] _).symm.trans hanswer)⟩
    rintro (hmutable | hwas)
    · simp [hbefore old rfl] at hmutable
    · rw [hs.versions_append [] asked hwish hwas, Except.ok.injEq] at hanswer
      exact hsame hanswer.symm

section Step

variable {task : Task} {rest : List Task} {d : Demand} {m : PinnedModule} {before entry : Entry}
variable {pick : Pick} {fetched : Option ModuleManifest}

theorem Handled.rank_self (h : Handled s r r' rest m entry fetched) :
    r'.rank s requirements first m.name =
      entry.rank s requirements m.name (first.uriOf m.name) := by
  rw [rank, h.find, if_pos rfl, Option.getD_some]

theorem Handled.rank_other (h : Handled s r r' rest m entry fetched) {name : String}
    (hne : name ≠ m.name) :
    r'.rank s requirements first name = r.rank s requirements first name := by
  rw [rank, h.find, if_neg hne, rank]

/-- The rank of a given module goes down when its requests are put on the agenda. -/
theorem GivenStep.rank_cases (h : GivenStep s r r' task rest d m before fetched) :
    r'.rank s requirements first m.name < r.rank s requirements first m.name ∨
      fetched = none ∧
        r'.rank s requirements first m.name ≤ r.rank s requirements first m.name := by
  have hchosen : before.chosen = some m := h.chosen
  have hafter : r'.rank s requirements first m.name = 0 := by
    rw [h.rank_self, Entry.rank, if_pos h.given, if_pos hchosen.symm]
  rw [hafter]
  cases hfetched : fetched with
  | none => exact .inr ⟨rfl, Nat.zero_le _⟩
  | some manifest =>
    left
    have hnew := (h.fresh manifest hfetched).1
    rw [h.was, Option.bind_some, ← hchosen] at hnew
    rw [rank, h.was, Option.getD_some, Entry.rank, if_pos h.given, if_neg hnew]
    exact Nat.zero_lt_one

/-- The rank of any other module goes down when its requests are put on the agenda, and never goes
up. -/
theorem PickedStep.rank_cases (hs : s.Steady requirements) (hr : r.Tame s requirements first)
    (h : PickedStep s r r' task rest d m before pick fetched) :
    r'.rank s requirements first m.name < r.rank s requirements first m.name ∨
      fetched = none ∧
        r'.rank s requirements first m.name ≤ r.rank s requirements first m.name := by
  have hbefore : r.rank s requirements first m.name =
      before.rank s requirements m.name (first.uriOf m.name) := by
    rw [rank, h.own, ← h.was]
  rw [hbefore, h.rank_self]
  have hle := before.history.unasked_append_le d requirements m.name
  have hlow := (Entry.rank_bounds s requirements m.name (first.uriOf m.name) h.notGiven).1
  have hhigh := (Entry.rank_bounds s requirements m.name (first.uriOf m.name)
    (e := settledEntry (before.history ++ [d]) pick m) rfl).2
  -- Whoever asks for something new has one thing less to ask for. Otherwise the pick is either the
  -- one before, and then nothing is fetched, or an answer in place of what was none.
  by_cases hwish : d.wish ∈ before.history.map Demand.wish
  swap
  · have hlt := History.unasked_append_lt ((h.settled hr).wished d (by simp)) hwish
    left
    simp only [settledEntry] at hhigh ⊢
    omega
  rcases h.before_cases hr with ⟨_, hempty⟩ | ⟨history, old, hfind, hshape, hsettled⟩
  · simp [hempty] at hwish
  have hhistory : before.history = history := congrArg Entry.history hshape
  have hold : before.pick = some old := congrArg Entry.pick hshape
  have hpicked := h.picked
  rw [hold, h.uri_eq hr, hhistory] at hpicked
  rw [hhistory] at hwish
  rcases hpicked.same_or_firm hs hwish hsettled (h.declared hr) with hsame | ⟨hwas, hfirm⟩
  · right
    have hm : old.pinned m.name (first.uriOf m.name) = m := hsame ▸ (h.shape_first hr).symm
    constructor
    · -- The module is the one that was expanded before.
      apply Option.eq_none_iff_forall_ne_some.mpr
      intro manifest hfetched
      apply (h.fresh manifest hfetched).1
      rw [hfind, Option.bind_some, hshape, settledEntry, hm]
    · by_cases hfirm : old.IsFirm s history (first.uriOf m.name)
      · have hstill : pick.IsFirm s (before.history ++ [d]) (first.uriOf m.name) := by
          rw [hsame, hhistory]
          exact hfirm.append hs hwish
        rw [Entry.rank_of_firm rfl rfl hstill]
        simp only [settledEntry]
        omega
      · rw [Entry.rank_of_not_firm h.notGiven]
        · simp only [settledEntry] at hhigh ⊢
          omega
        · intro p hp
          rw [hold, Option.some.injEq] at hp
          rw [← hp, hhistory]
          exact hfirm
  · left
    rw [Entry.rank_of_not_firm h.notGiven, Entry.rank_of_firm rfl rfl]
    · simp only [settledEntry]
      omega
    · simpa [settledEntry, hhistory] using hfirm
    · intro p hp
      rw [hold, Option.some.injEq] at hp
      rw [← hp, hhistory]
      exact hwas

theorem Handled.potential_le (h : Handled s r r' rest m entry fetched)
    (hrank : r'.rank s requirements first m.name ≤ r.rank s requirements first m.name) :
    r'.potential s requirements first ≤ r.potential s requirements first := by
  apply List.sum_le_sum
  intro q _
  by_cases hname : q.name = m.name
  · rw [hname]
    exact hrank
  · exact Nat.le_of_eq (h.rank_other hname)

theorem Handled.potential_lt (h : Handled s r r' rest m entry fetched)
    (hnamed : ∃ q ∈ requirements, q.name = m.name)
    (hrank : r'.rank s requirements first m.name < r.rank s requirements first m.name) :
    r'.potential s requirements first < r.potential s requirements first := by
  refine List.sum_lt_sum _ _ ?_ ?_
  · intro q _
    by_cases hname : q.name = m.name
    · rw [hname]
      exact Nat.le_of_lt hrank
    · exact Nat.le_of_eq (h.rank_other hname)
  · obtain ⟨q, hq, hname⟩ := hnamed
    refine ⟨q, hq, ?_⟩
    rw [hname]
    exact hrank

/-- What a manifest adds to the agenda is made up for by the rank of its module. -/
theorem Handled.remaining_lt (hs : s.Steady requirements)
    (h : Handled s r r' rest m entry fetched) (hfirst : r.agenda.tasks = task :: rest)
    (hnamed : ∃ q ∈ requirements, q.name = m.name)
    (hrank : r'.rank s requirements first m.name < r.rank s requirements first m.name ∨
      fetched = none ∧
        r'.rank s requirements first m.name ≤ r.rank s requirements first m.name) :
    r'.remaining s requirements first < r.remaining s requirements first := by
  rw [remaining, remaining, h.tasks, hfirst, List.length_append, List.length_cons]
  rcases hrank with hlt | ⟨rfl, hle⟩
  · have hpotential := h.potential_lt hnamed hlt
    have hmul := Nat.mul_le_mul_right (requirements.length + 1) hpotential
    rw [Nat.succ_mul] at hmul
    have hwidth : (fetched.elim [] fun manifest => manifest.tasks m).length ≤
        requirements.length := by
      cases hfetched : fetched with
      | none => simp
      | some manifest =>
        simpa [ModuleManifest.tasks] using hs.width _ _ _ (h.fresh manifest hfetched).2.1
    omega
  · have hmul := Nat.mul_le_mul_right (requirements.length + 1) (h.potential_le hle)
    simp only [Option.elim_none, List.length_nil]
    omega

end Step

theorem remaining_transition (hs : s.Steady requirements) (hr : r.Tame s requirements first)
    (h : Transition s r r') (hfailure : r'.failure = none) :
    r'.remaining s requirements first < r.remaining s requirements first := by
  cases h with
  | @lost task rest _ htasks _ =>
    change r.potential s requirements first * _ + rest.length < _
    rw [remaining, htasks, List.length_cons]
    omega
  | failed hfailed _ => simp [hfailure] at hfailed
  | given h =>
    exact h.remaining_lt hs h.first ⟨_, hr.first_mem h.first, h.name.symm⟩ h.rank_cases
  | picked h =>
    exact h.remaining_lt hs h.first ⟨_, hr.first_mem h.first, h.own.symm⟩ (h.rank_cases hs hr)

theorem finish?_of_remaining_le (hs : s.Steady requirements)
    (hapart : Cache.KeysApart (first.places requirements)) {limit : Nat}
    (hr : r.failure = none → r.agenda.IsSound ∧ r.Tame s requirements first ∧
      r.remaining s requirements first ≤ limit) :
    ∃ ended, finish? s limit r = some ended := by
  -- The bound goes down with every step that does not fail, and after one that does nothing is left.
  induction limit generalizing s r with
  | zero =>
    rw [finish?]
    cases hactive : r.isActive with
    | false => exact ⟨r, rfl⟩
    | true =>
      obtain ⟨hfailure, task, rest, htasks⟩ := exists_task_of_isActive hactive
      have hleft := (hr hfailure).2.2
      rw [remaining, htasks, List.length_cons] at hleft
      omega
  | succ limit ih =>
    rw [finish?]
    cases hactive : r.isActive with
    | false => exact ⟨r, rfl⟩
    | true =>
      obtain ⟨hsound, htame, hleft⟩ := hr (exists_task_of_isActive hactive).1
      have htransition := step_transition (s := s) hsound hactive
      refine ih (hs.withClock _ _) fun hnone => ?_
      have hless := remaining_transition hs htame htransition hnone
      have hsame : (step s r).remaining s.next requirements first =
        (step s r).remaining s requirements first := rfl
      exact ⟨isSound_transition hsound htransition hnone,
        (tame_transition hs hapart htame htransition hnone).of_manifests rfl, by omega⟩

theorem potential_le (s : Surroundings) (requirements : List Requirement) (first : Agenda)
    (r : Run) :
    r.potential s requirements first ≤ requirements.length * (2 * requirements.length + 1) := by
  have hle := List.sum_le_card_nsmul
    (requirements.map fun q => r.rank s requirements first q.name) (2 * requirements.length + 1) (by
      intro n hn
      obtain ⟨q, _, rfl⟩ := List.mem_map.mp hn
      exact Entry.rank_le _ _ _ _ _)
  simpa [potential] using hle

/-- Runs in steady surroundings end, after no more steps than a polynomial in the number of
requirements. -/
theorem ends_of_steady {tasks : List Task} {replacements : List (String × String)}
    {given : List PinnedModule} {base : Path} {cache : Cache} {workers : Nat}
    (hs : s.Steady requirements) (htasks : ∀ task ∈ tasks, task.requirement ∈ requirements)
    (hapart : Cache.KeysApart
      ((Agenda.start tasks replacements given base).places requirements)) :
    ∃ ended, finish? s
      (requirements.length * (2 * requirements.length + 1) * (requirements.length + 1) +
        tasks.length)
      { agenda := .start tasks replacements given base, cache, workers } = some ended := by
  refine finish?_of_remaining_le hs hapart ?_
  intro _
  refine ⟨isSound_start _ _ _ _, tame_start replacements given base cache workers htasks, ?_⟩
  exact Nat.add_le_add_right (Nat.mul_le_mul_right _ (potential_le _ _ _ _)) _

end Run

namespace Goal

/-- All requirements that a run can meet: those of its goal and those in manifests. -/
def requirements (goal : Goal) (shelf : Shelf) : List Requirement :=
  goal.tasks.map Task.requirement ++ shelf.requirements

def stepBound (goal : Goal) (shelf : Shelf) : Nat :=
  let n := (goal.requirements shelf).length
  n * (2 * n + 1) * (n + 1) + goal.tasks.length

end Goal

namespace Run

/-- A run in memory ends, whatever its registry, shelf and goal are and whatever its cache holds. -/
theorem ends_inMemory {goal : Goal} {given : List PinnedModule} {cache : Cache} {base : Path}
    {start : Run} {registry : Registry} {failing : Option Failure} {shelf : Shelf} {now : Int}
    {later : Nat → Int}
    (hstart : Run.start goal given 1 cache base = .ok start)
    (hapart : Cache.KeysApart (start.agenda.places (goal.requirements shelf))) :
    ∃ ended, finish? (.inMemory registry failing shelf now later) (goal.stepBound shelf) start =
      some ended := by
  obtain ⟨_, rfl⟩ := start_ok hstart
  refine ends_of_steady ?_ ?_ hapart
  · refine Surroundings.steady_inMemory ?_ ?_
    · intro q hq
      exact List.mem_append_right _ hq
    · simp [Goal.requirements]
  · intro task ht
    exact List.mem_append_left _ (List.mem_map_of_mem ht)

theorem ends_inMemory_cycle :
    ∃ ended, finish? (.inMemory cycleRegistry none cycleShelf 0)
      ((Goal.project cycleProject).stepBound cycleShelf) cycleStart = some ended := by
  refine ends_inMemory cycle_starts ⟨?_, ?_⟩
  · decide +kernel
  · decide +kernel

end Run

end ModulePins
