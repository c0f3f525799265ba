import ModulePins.Proofs.Corrupt
import ModulePins.Proofs.Resolution.Ending
import ModulePins.Proofs.Resolution.Lockstep

/-!
# Runs without the corrupt entries

Corrupt entries are taken out of the cache, and the run is done again. The two runs go side by side:
they deal with the same tasks, ask the same questions, and differ in notices and in what their
caches hold in the places of the corrupt entries. They part only where reading a corrupt entry
fails.
-/

namespace ModulePins

namespace Run

variable {s : Surroundings} {r t start : Run} {first other c d : Cache}

/-- Two runs that differ in notices and corrupt entries only. -/
structure Beside (first other : Cache) (r t : Run) : Prop where
  agenda : t.agenda = r.agenda
  workers : t.workers = r.workers
  manifests : t.manifests = r.manifests
  queries : t.queries = r.queries
  fetches : t.fetches = r.fetches
  failure : t.failure = r.failure
  notices : t.notices.Sublist r.notices
  cache : Cache.ClearedFrom first other r.cache t.cache

structure BesideWith {α : Type} (first other : Cache) (x y : Run × α) : Prop where
  run : Beside first other x.1 y.1
  outcome : y.2 = x.2

/-- The runs stay side by side, or the first has failed to read a corrupt entry. -/
def BesideOrSpoiled {α : Type} (s : Surroundings) (first other : Cache)
    (x y : Run × Except Failure α) : Prop :=
  BesideWith first other x y ∨
    ∃ failure, x.2 = .error failure ∧ Cache.Spoils first other s.now failure

theorem Beside.outcome_eq (h : Beside first other r t) : t.outcome = r.outcome := by
  rw [outcome, outcome, h.failure, h.agenda]

theorem Beside.isActive (h : Beside first other r t) : t.isActive = r.isActive := by
  rw [Run.isActive, Run.isActive, h.failure, h.workers, h.agenda]

theorem cacheFailure_of_unreadable {depth : Nat} {bytes : List UInt8} {failure : Failure}
    (h : Cache.Unreadable depth bytes failure) (name : String) :
    cacheFailure name failure = failure := by
  cases h <;> rfl

theorem Beside.askVersion (h : Beside first other r t) (name uri : String) (history : History) :
    BesideWith first other (askVersion s r name uri history) (askVersion s t name uri history) := by
  unfold Run.askVersion
  dsimp only
  rw [h.queries]
  have hasked : Beside first other
      { r with queries := r.queries ++ [history.query uri] }
      { t with queries := r.queries ++ [history.query uri] } := { h with queries := rfl }
  split
  · exact ⟨hasked, rfl⟩
  · rename_i pick _
    rcases h.cache.put s.now uri history.channel pick with ⟨fault, hput, hput'⟩ |
      ⟨after, after', hput, hput', hcleared⟩
    · rw [hput, hput']
      exact ⟨hasked, rfl⟩
    · rw [hput, hput']
      exact ⟨{ hasked with cache := hcleared }, rfl⟩

/-- A lookup that does not fail on a corrupt entry asks the same question or finds the same pick. -/
theorem Beside.lookUpVersion (h : Beside first other r t) (name uri : String) (history : History) :
    BesideOrSpoiled s first other (lookUpVersion s r name uri history)
      (lookUpVersion s t name uri history) := by
  have hnotices : ∀ more extra : List Notice, extra.Sublist more →
      Beside first other { r with notices := r.notices ++ more }
        { t with notices := t.notices ++ extra } :=
    fun more extra hmore => { h with notices := h.notices.append hmore }
  obtain hsame | ⟨hmissed, hnone | ⟨failure, hfailed, hspoils⟩⟩ :=
    h.cache.get s.now uri history.channel
  · left
    unfold Run.lookUpVersion
    dsimp only
    rw [hsame]
    have hnoted := hnotices (r.cache.get s.now uri history.channel).notices _ (List.Sublist.refl _)
    split
    · exact ⟨hnoted, rfl⟩
    · exact hnoted.askVersion name uri history
    · split
      · exact ⟨hnoted, rfl⟩
      · exact hnoted.askVersion name uri history
  · left
    unfold Run.lookUpVersion
    dsimp only
    rw [hmissed, hnone]
    exact (hnotices _ [] (List.nil_sublist _)).askVersion name uri history
  · right
    refine ⟨failure, ?_, hspoils⟩
    obtain ⟨_, _, _, _, _, _, _, _, hunreadable⟩ := hspoils
    unfold Run.lookUpVersion
    dsimp only
    rw [hfailed]
    exact congrArg Except.error (cacheFailure_of_unreadable hunreadable name)

theorem Beside.choosePick (h : Beside first other r t) (item : Item) (uri : String) :
    BesideOrSpoiled s first other (choosePick s r item uri) (choosePick s t item uri) := by
  unfold Run.choosePick
  dsimp only
  rw [h.agenda]
  split
  · exact .inl ⟨h, rfl⟩
  · split
    · exact .inl ⟨{ h with agenda := rfl, notices := h.notices.append (List.Sublist.refl _) }, rfl⟩
    · split
      · exact .inl ⟨h, rfl⟩
      · exact h.lookUpVersion _ _ _

theorem Beside.fetchManifest (h : Beside first other r t) (m : PinnedModule) :
    BesideWith first other (fetchManifest s r m) (fetchManifest s t m) := by
  unfold Run.fetchManifest
  dsimp only
  rw [h.fetches]
  have hfetched : ∀ notices fetches, Beside first other
      { r with fetches, notices := r.notices ++ notices }
      { t with fetches, notices := t.notices ++ notices } :=
    fun _ _ => { h with fetches := rfl, notices := h.notices.append (List.Sublist.refl _) }
  split
  · exact ⟨hfetched _ _, rfl⟩
  · split
    · exact ⟨hfetched _ _, rfl⟩
    · exact ⟨hfetched _ _, rfl⟩

theorem Beside.withAgenda (h : Beside first other r t) (agenda : Agenda) :
    Beside first other { r with agenda } { t with agenda } :=
  { h with agenda := rfl }

theorem BesideWith.concluded {x y : Run × Except Failure ModuleManifest}
    (h : BesideWith first other x y) (m : PinnedModule) :
    Beside first other (concluded m x) (concluded m y) := by
  obtain ⟨r, outcome⟩ := x
  obtain ⟨t, outcome'⟩ := y
  obtain ⟨hrun, rfl⟩ := h
  cases outcome' with
  | error failure => exact { hrun with failure := rfl }
  | ok manifest =>
    dsimp only at hrun
    refine { hrun with agenda := ?_, manifests := ?_ }
    · simp only [Run.concluded, hrun.agenda]
    · simp only [Run.concluded, hrun.manifests]

theorem Beside.expand (h : Beside first other r t) (m : PinnedModule) :
    Beside first other (expand s r m) (expand s t m) := by
  by_cases hknown : (r.agenda.find? m.name).bind Entry.expanded = some m
  · rw [Run.expand, Run.expand, h.agenda, if_pos hknown, if_pos hknown]
    exact h
  · have hmarked : Beside first other (r.marked m) (t.marked m) := by
      rw [Run.marked, Run.marked, h.agenda]
      exact h.withAgenda _
    rw [expand_of_new hknown, expand_of_new (by rwa [h.agenda])]
    exact (hmarked.fetchManifest m).concluded m

/-- What one step leaves behind. -/
def StaysBeside (s : Surroundings) (first other : Cache) (r t : Run) : Prop :=
  Beside first other r t ∨ ∃ failure, r.failure = some failure ∧
    Cache.Spoils first other s.now failure

theorem Beside.process (h : Beside first other r t) (item : Item) :
    StaysBeside s first other (process s r item) (process s t item) := by
  unfold Run.process
  rw [h.agenda]
  cases item.uri with
  | none =>
    dsimp only
    cases (r.agenda.find? item.name).bind Entry.chosen with
    | none => exact .inl h
    | some m => exact .inl (h.expand m)
  | some uri =>
    dsimp only
    obtain ⟨hrun, houtcome⟩ | ⟨failure, hfailed, hspoils⟩ := h.choosePick (s := s) item uri
    · left
      generalize Run.choosePick s r item uri = x at hrun houtcome
      generalize Run.choosePick s t item uri = y at hrun houtcome
      obtain ⟨r', outcome⟩ := x
      obtain ⟨t', outcome'⟩ := y
      obtain rfl : outcome' = outcome := houtcome
      cases outcome' with
      | error failure => exact { hrun with failure := rfl }
      | ok pick =>
        dsimp only at hrun ⊢
        rw [hrun.agenda]
        exact (hrun.withAgenda _).expand _
    · right
      refine ⟨failure, ?_, hspoils⟩
      generalize Run.choosePick s r item uri = x at hfailed
      obtain ⟨r', outcome⟩ := x
      obtain rfl : outcome = .error failure := hfailed
      rfl

theorem Beside.step (h : Beside first other r t) :
    StaysBeside s first other (step s r) (step s t) := by
  unfold Run.step
  rw [h.agenda]
  cases r.agenda.pop with
  | empty => exact .inl h
  | broken agenda => exact .inl { h with agenda := rfl, workers := by rw [h.workers] }
  | item item agenda => exact (h.withAgenda agenda).process item

/-- A run that ends with a step that fails to read a corrupt entry. -/
def EndsSpoiled (s : Surroundings) (first other : Cache) (start ended : Run) (failure : Failure) :
    Prop :=
  ∃ t r, Reachable s start t r ∧ r.isActive = true ∧ ended = step t r ∧
    Cache.Spoils first other t.now failure

/-- Two runs in what is left of a limit: the second goes on as long as the first does, and they end
side by side, or the first by failing to read a corrupt entry. -/
structure EndsBeside (s : Surroundings) (first other : Cache) (start : Run) (x y : Option Run) :
    Prop where
  endless : x = none → y = none
  ends : ∀ ended, x = some ended →
    (∃ ended', y = some ended' ∧ Beside first other ended ended') ∨
      ∃ failure, ended.failure = some failure ∧ EndsSpoiled s first other start ended failure

theorem Beside.ends (h : Beside first other r t) :
    EndsBeside s first other r (some r) (some t) where
  endless hnone := by cases hnone
  ends ended hrun := by
    obtain rfl := Option.some.inj hrun
    exact .inl ⟨t, rfl, h⟩

theorem EndsBeside.of_step {x y : Option Run} (hactive : r.isActive = true)
    (h : EndsBeside s.next first other (step s r) x y) : EndsBeside s first other r x y where
  endless := h.endless
  ends ended hrun := by
    obtain hbeside | ⟨failure, hfailed, u, last, hreach, hlast, hstep, hspoils⟩ := h.ends ended hrun
    · exact .inl hbeside
    · exact .inr ⟨failure, hfailed, u, last, hreach.of_step hactive, hlast, hstep, hspoils⟩

theorem Beside.finish? (h : Beside first other r t) (limit : Nat) :
    EndsBeside s first other r (finish? s limit r) (finish? s limit t) := by
  induction limit generalizing s r t with
  | zero =>
    rw [Run.finish?, Run.finish?, h.isActive]
    split
    · exact ⟨fun _ => rfl, fun ended hrun => by cases hrun⟩
    · exact h.ends
  | succ limit ih =>
    rw [Run.finish?, Run.finish?, h.isActive]
    split
    · rename_i hactive
      obtain hbeside | ⟨failure, hfailed, hspoils⟩ := h.step (s := s)
      · exact (ih hbeside).of_step hactive
      · -- With its failure the first run has ended, wherever the second one goes.
        rw [finish?_of_idle (isActive_of_failure hfailed) limit]
        refine ⟨fun hnone => (Option.some_ne_none _ hnone).elim, fun ended hrun =>
          .inr ⟨failure, ?_, ?_⟩⟩
        · rw [← Option.some.inj hrun, hfailed]
        · exact ⟨s, r, .initial, hactive, (Option.some.inj hrun).symm, hspoils⟩
    · exact h.ends

/-- Every entry is read as its bytes say, and a run gives what it gives without the corrupt entries,
unless it comes to a corrupt entry that cannot be read at all. -/
theorem missed_or_spoiled (s : Surroundings) (h : Cache.Cleared c d) (goal : Goal)
    (given : List PinnedModule) (workers : Int) (base : Path) (limit : Nat) :
    (∀ (cache : Cache) (now : Int) (uri channel : String) (slot : Slot) (bytes : List UInt8),
      cache.slot? uri channel = some slot → cache.isFreshSlot now slot = true →
        slot.content = .file bytes →
          Cache.Lawful cache.depth bytes (cache.get now uri channel).outcome) ∧
    (∀ failure, Run.start goal given workers c base = .error failure →
      Run.start goal given workers d base = .error failure) ∧
    ∀ start, Run.start goal given workers c base = .ok start →
      ∃ start', Run.start goal given workers d base = .ok start' ∧
        (finish? s limit start = none → finish? s limit start' = none) ∧
        ∀ ended, finish? s limit start = some ended →
          (∃ ended', finish? s limit start' = some ended' ∧ ended'.outcome = ended.outcome ∧
            Beside c d ended ended') ∨
          ∃ failure, ended.outcome = .error failure ∧ EndsSpoiled s c d start ended failure := by
  refine ⟨fun _ _ _ _ _ _ hslot hfresh hcontent => Cache.get_lawful hslot hfresh hcontent,
    fun failure hfailed => ?_, fun start hstart => ?_⟩
  · rw [start_onCache goal given workers c d, hfailed]
    rfl
  · have hbeside : Beside c d start { start with cache := d } :=
      ⟨rfl, rfl, rfl, rfl, rfl, rfl, List.Sublist.refl _, cache_of_start hstart ▸ h.clearedFrom⟩
    have hends := hbeside.finish? (s := s) limit
    refine ⟨{ start with cache := d }, ?_, hends.endless, fun ended hrun => ?_⟩
    · rw [start_onCache goal given workers c d, hstart]
      rfl
    · obtain ⟨ended', hrun', hended⟩ | ⟨failure, hfailed, hspoils⟩ :=
        hends.ends ended hrun
      · exact .inl ⟨ended', hrun', hended.outcome_eq, hended⟩
      · exact .inr ⟨failure, by rw [outcome, hfailed], hspoils⟩

/-- A cache with these bytes for `a`, and a record of `b`. -/
def entryCache (bytes : List UInt8) : Cache where
  root := "/cache"
  slots := [
    (cacheKey "https://a" "", { content := .file bytes, stamp := 0 }),
    (cacheKey "https://b" "", Cache.recordSlot { tag := "1.0.0" } 0)]

/-- The same cache without the entry of `a`. -/
def clearedCache (bytes : List UInt8) : Cache :=
  (entryCache bytes).without fun key => key == cacheKey "https://a" ""

theorem slot?_entryCache (bytes : List UInt8) : (entryCache bytes).slot? "https://a" "" =
    some { content := .file bytes, stamp := 0 } := by
  simp [Cache.slot?, entryCache]

theorem cleared_entryCache {bytes : List UInt8}
    (h : Cache.held? (entryCache bytes).depth bytes = none) :
    Cache.Cleared (entryCache bytes) (clearedCache bytes) := by
  refine Cache.cleared_without fun key slot hslot hgone => ?_
  obtain rfl : key = cacheKey "https://a" "" := by simpa using hgone
  obtain rfl : { content := .file bytes, stamp := 0 } = slot := by simpa [entryCache] using hslot
  exact (Slot.isCorrupt_iff _ _).mpr ⟨bytes, rfl, h⟩

/-- A record that breaks off is passed over. -/
theorem missed_or_spoiled_broken_off :
    Cache.Cleared (entryCache [0x7B]) (clearedCache [0x7B]) ∧
      ∃ start' ended ended', Run.start (.project cycleProject) [] 1 (clearedCache [0x7B]) = .ok start' ∧
        finish? (.inMemory cycleRegistry none cycleShelf 0) 10
          { cycleStart with cache := entryCache [0x7B] } = some ended ∧
        finish? (.inMemory cycleRegistry none cycleShelf 0) 10 start' = some ended' ∧
        ended.outcome = .ok cycleModules ∧ ended'.outcome = ended.outcome := by
  have hcleared : Cache.Cleared (entryCache [0x7B]) (clearedCache [0x7B]) := cleared_entryCache rfl
  obtain ⟨ended, hrun, hreturn⟩ : ∃ ended, finish? (.inMemory cycleRegistry none cycleShelf 0) 10
      { cycleStart with cache := entryCache [0x7B] } = some ended ∧
        ended.outcome = .ok cycleModules := by
    apply exists_returned
    decide +kernel
  obtain ⟨_, _, hstarted⟩ := missed_or_spoiled (.inMemory cycleRegistry none cycleShelf 0) hcleared
    (.project cycleProject) [] 1 .top 10
  obtain ⟨start', hstart', _, hends⟩ := hstarted _ rfl
  obtain ⟨ended', hrun', hsame, _⟩ | ⟨failure, hfailed, _⟩ := hends ended hrun
  · exact ⟨hcleared, start', ended, ended', hstart', hrun, hrun', hreturn, hsame⟩
  · rw [hreturn] at hfailed
    cases hfailed

/-- A byte that starts no character makes the run fail that returns without it. -/
theorem garbled_fails :
    Cache.Cleared (entryCache [0xFF]) (clearedCache [0xFF]) ∧
      ((entryCache [0xFF]).get 0 "https://a" "").outcome =
        .error (.accident (.undecodable (.ofUtf8 [0xFF] 0
          { flaw := .badStart, position := 0, width := 1 }))) ∧
      (∃ ended, finish? (.inMemory cycleRegistry none cycleShelf 0) 10
          { cycleStart with cache := entryCache [0xFF] } = some ended ∧
        ended.outcome.toOption = none) ∧
      ∃ ended, finish? (.inMemory cycleRegistry none cycleShelf 0) 10
          { cycleStart with cache := clearedCache [0xFF] } = some ended ∧
        ended.outcome = .ok cycleModules := by
  refine ⟨cleared_entryCache rfl, ?_, ?_, ?_⟩
  · exact ((Cache.get_lawful (slot?_entryCache _) rfl rfl).failed _).mpr
      ((Cache.unreadable_of_decode_error rfl).mpr rfl)
  · apply exists_of_any
    decide +kernel
  · apply exists_returned
    decide +kernel

end Run

end ModulePins
