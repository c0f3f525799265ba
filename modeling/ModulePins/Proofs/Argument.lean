import ModulePins.Manifest.Module
import ModulePins.Proofs.Argument.Check
import ModulePins.Proofs.Checked

/-!
# The values of arguments

An argument has the value that was supplied for it, else its default. If the values of a module's
arguments can be settled, then every one of them is accepted and none that is required is missing.
For supplied values that is checked when they are settled. Defaults are checked when the manifest is
read, so that every manifest that was read has sound arguments.
-/

namespace ModulePins

namespace Argument

variable {supplied : List (String × Value)} {declared : List (String × Argument)}
variable {name : String} {a : Argument} {depth : Nat}

/-- An argument that accepts its own default, if it has one. -/
def IsSound (a : Argument) : Prop :=
  a.default.isNull = true ∨ a.accepts a.default = true

def value? (supplied : List (String × Value)) (name : String) (a : Argument) : Option Value :=
  (supplied? supplied name).or (if a.default.isNull then none else some a.default)

/-- The values of declared arguments, in order of declaration. -/
def given (supplied : List (String × Value)) (declared : List (String × Argument)) :
    List (String × Value) :=
  declared.filterMap fun (name, a) => (value? supplied name a).map (name, ·)

theorem choose_eq_ok {chosen : Option Value} :
    choose supplied name a depth = .ok chosen ↔
      value? supplied name a = chosen ∧
        (∀ v, supplied? supplied name = some v → a.Fits v) ∧
        (a.required = true → (value? supplied name a).isSome = true) := by
  unfold choose value?
  cases supplied? supplied name with
  | some v =>
    dsimp only
    rcases objection?_cases a v depth with ⟨hnone, hfits⟩ | ⟨objection, hsome, hfinds⟩
    · simp [hnone, hfits]
    · simp [hsome, hfinds.not_fits]
  | none =>
    by_cases hnull : a.default.isNull = true
    · by_cases hrequired : a.required = true
      · simp [hnull, hrequired]
      · simp [hnull, hrequired]
    · simp [hnull]

theorem given_cons (rest : List (String × Argument)) :
    given supplied ((name, a) :: rest) =
      ((value? supplied name a).map (name, ·)).toList ++ given supplied rest := by
  unfold given
  cases h : value? supplied name a <;> simp [h]

def problem? (supplied : List (String × Value)) (depth : Nat) (entry : String × Argument) :
    Option Problem :=
  match choose supplied entry.1 entry.2 depth with
  | .error problem => some problem
  | .ok _ => none

theorem problem?_eq_none :
    problem? supplied depth (name, a) = none ↔ ∃ chosen, choose supplied name a depth = .ok chosen := by
  unfold problem?
  cases choose supplied name a depth <;> simp

theorem resolve_eq (supplied : List (String × Value)) (declared : List (String × Argument))
    (depth : Nat) :
    resolve supplied declared depth =
      if declared.filterMap (problem? supplied depth) = [] then .ok (given supplied declared)
      else .error (declared.filterMap (problem? supplied depth)) := by
  induction declared with
  | nil => rfl
  | cons entry rest ih =>
    obtain ⟨name, a⟩ := entry
    rw [resolve, ih, given_cons]
    cases hchoose : choose supplied name a depth with
    | error problem =>
      have hproblem : problem? supplied depth (name, a) = some problem := by simp [problem?, hchoose]
      rw [List.filterMap_cons_some hproblem, if_neg (List.cons_ne_nil _ _)]
      by_cases hrest : rest.filterMap (problem? supplied depth) = []
      · simp [hrest]
      · simp [hrest]
    | ok chosen =>
      have hproblem : problem? supplied depth (name, a) = none := problem?_eq_none.mpr ⟨chosen, hchoose⟩
      rw [List.filterMap_cons_none hproblem, (choose_eq_ok.mp hchoose).1]
      by_cases hrest : rest.filterMap (problem? supplied depth) = []
      · cases chosen <;> simp [hrest]
      · cases chosen <;> simp [hrest]

/-- All arguments are settled exactly if each one is, and then their values are those given. -/
theorem resolve_eq_ok {values : List (String × Value)} :
    resolve supplied declared depth = .ok values ↔
      (∀ entry ∈ declared, ∃ chosen, choose supplied entry.1 entry.2 depth = .ok chosen) ∧
        given supplied declared = values := by
  have hnone : declared.filterMap (problem? supplied depth) = [] ↔
      ∀ entry ∈ declared, ∃ chosen, choose supplied entry.1 entry.2 depth = .ok chosen := by
    simp only [List.filterMap_eq_nil_iff, ← problem?_eq_none]
  rw [resolve_eq, ← hnone]
  split
  · rename_i hall
    simp [hall]
  · rename_i hsome
    simp [hsome]

theorem name_of_mem_given {v : Value} (h : (name, v) ∈ given supplied declared) :
    name ∈ declared.map Prod.fst := by
  obtain ⟨⟨name', a⟩, hmem, hvalue⟩ := List.mem_filterMap.mp h
  obtain ⟨_, _, heq⟩ := Option.map_eq_some_iff.mp hvalue
  obtain ⟨rfl, rfl⟩ := Prod.mk.inj heq
  exact List.mem_map_of_mem hmem

theorem lookup_given (hnodup : (declared.map Prod.fst).Nodup) (hmem : (name, a) ∈ declared) :
    (given supplied declared).lookup name = value? supplied name a := by
  induction declared with
  | nil => cases hmem
  | cons entry rest ih =>
    obtain ⟨other, b⟩ := entry
    rw [List.map_cons, List.nodup_cons] at hnodup
    rw [given_cons]
    rcases List.mem_cons.mp hmem with heq | hrest
    · obtain ⟨rfl, rfl⟩ := Prod.mk.inj heq
      cases value? supplied name a with
      | some v => simp
      | none =>
        rw [Option.map_none, Option.toList_none, List.nil_append, List.lookup_eq_none_iff]
        rintro ⟨k, v⟩ hk
        suffices hne : name ≠ k by simpa using hne
        rintro rfl
        exact hnodup.1 (name_of_mem_given hk)
    · have hne : name ≠ other := by
        rintro rfl
        exact hnodup.1 (List.mem_map.mpr ⟨_, hrest, rfl⟩)
      have hbeq : (name == other) = false := by simpa using hne
      rw [← ih hnodup.2 hrest]
      cases value? supplied other b <;> simp [List.lookup_cons, hbeq]

/-- What holds of the values settled for the arguments of a module. -/
structure Settled (supplied : List (String × Value)) (declared : List (String × Argument))
    (values : List (String × Value)) : Prop where
  known : ∀ name ∈ values.map Prod.fst, name ∈ declared.map Prod.fst
  found : ∀ name a, (name, a) ∈ declared → values.lookup name = value? supplied name a
  accepted : ∀ name a v, (name, a) ∈ declared → value? supplied name a = some v →
    a.accepts v = true
  required : ∀ name a, (name, a) ∈ declared → a.required = true →
    ∃ v, value? supplied name a = some v

theorem settled_of_resolve {values : List (String × Value)}
    (hdistinct : (declared.map Prod.fst).Nodup) (hsound : ∀ entry ∈ declared, entry.2.IsSound)
    (h : resolve supplied declared depth = .ok values) : Settled supplied declared values := by
  obtain ⟨hchosen, rfl⟩ := resolve_eq_ok.mp h
  have hchoice : ∀ name a, (name, a) ∈ declared →
      (∀ v, supplied? supplied name = some v → a.Fits v) ∧
        (a.required = true → (value? supplied name a).isSome = true) := by
    intro name a hmem
    obtain ⟨chosen, hchoose⟩ := hchosen _ hmem
    exact (choose_eq_ok.mp hchoose).2
  refine ⟨?_, fun name a hmem => lookup_given hdistinct hmem, ?_, ?_⟩
  · intro name hname
    obtain ⟨⟨_, v⟩, hgiven, rfl⟩ := List.mem_map.mp hname
    exact name_of_mem_given hgiven
  · intro name a v hmem hvalue
    rcases Option.or_eq_some_iff.mp hvalue with hsupplied | ⟨_, hdefault⟩
    · exact accepts_iff_fits.mpr ((hchoice name a hmem).1 v hsupplied)
    · split at hdefault
      · cases hdefault
      · rename_i hnull
        cases hdefault
        exact (hsound _ hmem).resolve_left hnull
  · intro name a hmem hrequired
    exact Option.isSome_iff_exists.mp ((hchoice name a hmem).2 hrequired)

theorem isSound_of_read {v : Value} (h : (read v depth).outcome = .ok a) : a.IsSound := by
  unfold read Value.asRecord at h
  split at h
  · obtain ⟨b, _, hcheck⟩ := Checked.andThen_eq_ok.mp h
    unfold checkDefault at hcheck
    split at hcheck
    · cases hcheck
      exact .inl ‹_›
    · split at hcheck
      · rename_i hnone
        cases hcheck
        exact .inr (accepts_iff_fits.mpr (objection?_eq_none.mp hnone))
      all_goals cases hcheck
  · cases h

end Argument

theorem Value.forall_of_asEntriesFrom {α : Type} {P : α → Prop} {f : Value → Checked α}
    (hf : ∀ v a, (f v).outcome = .ok a → P a) {entries : List (Value × Value)}
    {read : List (String × α)} (h : (asEntriesFrom f entries).outcome = .ok read) :
    ∀ entry ∈ read, P entry.2 := by
  induction entries generalizing read with
  | nil =>
    cases h
    intro _ hentry
    cases hentry
  | cons entry rest ih =>
    simp only [asEntriesFrom, Checked.seq_eq_ok, Checked.map_eq_ok, Checked.under_eq_ok] at h
    obtain ⟨_, others, ⟨_, a, ⟨name, _, rfl⟩, ha, rfl⟩, hothers, rfl⟩ := h
    rw [List.forall_mem_cons]
    exact ⟨hf _ a ha, ih hothers⟩

namespace ModuleManifest

/-- What holds of the arguments of every manifest: their names are the keys of a mapping, and each
of them accepts its own default. -/
structure IsSound (manifest : ModuleManifest) : Prop where
  distinct : (manifest.arguments.map Prod.fst).Nodup
  defaults : ∀ entry ∈ manifest.arguments, entry.2.IsSound

/-- Every argument of a manifest that was read accepts its own default. -/
theorem defaults_of_read {v : Value} {manifest : ModuleManifest}
    {depth : Nat} (h : (read v depth).outcome = .ok manifest) :
    ∀ entry ∈ manifest.arguments, entry.2.IsSound := by
  unfold read Value.asRecord at h
  split at h
  · simp only [Checked.seq_eq_ok, Checked.map_eq_ok] at h
    obtain ⟨_, _, ⟨_, _, ⟨_, arguments, ⟨_, _, ⟨_, _, ⟨_, _, rfl⟩, _, rfl⟩, _, rfl⟩, harguments,
      rfl⟩, _, rfl⟩, _, rfl⟩ := h
    rcases Checked.optional_eq_ok.mp harguments with ⟨w, _, hread⟩ | ⟨_, rfl⟩
    · unfold Value.asEntries at hread
      split at hread
      · exact Value.forall_of_asEntriesFrom (fun _ _ => Argument.isSound_of_read) hread
      · cases hread
    · intro _ hentry
      cases hentry
  · cases h

end ModuleManifest

end ModulePins
