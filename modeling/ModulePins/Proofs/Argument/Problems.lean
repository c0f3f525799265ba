import ModulePins.Failure
import ModulePins.Proofs.Argument
import Mathlib.Data.List.Forall2

/-!
# Problems with arguments

The values of arguments can be settled exactly if none of the arguments has a problem. Each argument
has one problem at most, and all of them are reported, in the order of declaration. Otherwise every
argument that was supplied or has a default gets its value, in the same order, and accepts it.
-/

namespace ModulePins

namespace Argument

variable {supplied : List (String × Value)} {declared : List (String × Argument)}
variable {entry : String × Argument} {a : Argument} {v : Value} {depth : Nat}

/-- A declared argument that is supplied with a value which does not fit, or that is required and
has no value at all. -/
def Offends (supplied : List (String × Value)) (entry : String × Argument) : Prop :=
  (∃ v, supplied? supplied entry.1 = some v ∧ ¬entry.2.Fits v) ∨
    supplied? supplied entry.1 = none ∧ entry.2.default.isNull = true ∧ entry.2.required = true

/-- A declared argument that is supplied with a value which does not fit and cannot be shown. -/
def Obstructs (supplied : List (String × Value)) (depth : Nat) (reason : Value.Unshown)
    (entry : String × Argument) : Prop :=
  ∃ v, supplied? supplied entry.1 = some v ∧ ¬entry.2.Fits v ∧ v.shown depth = .error reason

inductive Describes (supplied : List (String × Value)) (depth : Nat) :
    Problem → String × Argument → Prop
  | rejected {name : String} {a : Argument} {v : Value} {objection : Objection}
      (hsupplied : supplied? supplied name = some v) (hfinds : a.Finds v depth objection) :
      Describes supplied depth (.rejected name objection) (name, a)
  | absent {name : String} {a : Argument} (hsupplied : supplied? supplied name = none)
      (hdefault : a.default.isNull = true) (hrequired : a.required = true) :
      Describes supplied depth (.absent name) (name, a)

theorem Describes.offends {problem : Problem} (h : Describes supplied depth problem entry) :
    Offends supplied entry := by
  cases h with
  | rejected hsupplied hfinds => exact .inl ⟨_, hsupplied, hfinds.not_fits⟩
  | absent hsupplied hdefault hrequired => exact .inr ⟨hsupplied, hdefault, hrequired⟩

theorem Describes.unshown?_eq_some {problem : Problem} {reason : Value.Unshown}
    (h : Describes supplied depth problem entry) :
    problem.unshown? = some reason ↔ Obstructs supplied depth reason entry := by
  cases h with
  | absent hsupplied _ _ => simp [Problem.unshown?, Obstructs, hsupplied]
  | rejected hsupplied hfinds =>
    have hunfit := hfinds.not_fits
    cases hfinds with
    | wrongKind _ hshown => simp [Problem.unshown?, Obstructs, hsupplied, hshown]
    | notAllowed _ _ _ _ hshown => simp [Problem.unshown?, Obstructs, hsupplied, hshown]
    | unshown _ hshown => simp [Problem.unshown?, Obstructs, hsupplied, hunfit, hshown]

theorem problem?_cases (supplied : List (String × Value)) (depth : Nat)
    (entry : String × Argument) :
    (∃ problem, problem? supplied depth entry = some problem ∧
        Describes supplied depth problem entry) ∨
      problem? supplied depth entry = none ∧ ¬Offends supplied entry := by
  obtain ⟨name, a⟩ := entry
  unfold problem? choose Offends
  dsimp only
  cases hsupplied : supplied? supplied name with
  | some v =>
    dsimp only
    rcases objection?_cases a v depth with ⟨hnone, hfits⟩ | ⟨objection, hsome, hfinds⟩
    · rw [hnone]
      refine .inr ⟨rfl, ?_⟩
      rintro (⟨w, hw, hunfit⟩ | ⟨hw, _⟩)
      · cases hw
        exact hunfit hfits
      · cases hw
    · rw [hsome]
      exact .inl ⟨_, rfl, .rejected hsupplied hfinds⟩
  | none =>
    by_cases hdefault : a.default.isNull = true
    · by_cases hrequired : a.required = true
      · exact .inl ⟨.absent name, by simp [hdefault, hrequired],
          .absent hsupplied hdefault hrequired⟩
      · exact .inr ⟨by simp [hdefault, hrequired], by simp [hrequired]⟩
    · exact .inr ⟨by simp [hdefault], by simp [hdefault]⟩

instance (supplied : List (String × Value)) (entry : String × Argument) :
    Decidable (Offends supplied entry) :=
  decidable_of_iff ((problem? supplied Nesting.limit entry).isSome = true) (by
    rcases problem?_cases supplied Nesting.limit entry with ⟨problem, hproblem, hdescribes⟩ |
      ⟨hnone, hoffends⟩
    · simp [hproblem, hdescribes.offends]
    · simp [hnone, hoffends])

theorem Obstructs.offends {reason : Value.Unshown} (h : Obstructs supplied depth reason entry) :
    Offends supplied entry :=
  let ⟨v, hsupplied, hunfit, _⟩ := h
  .inl ⟨v, hsupplied, hunfit⟩

/-- The problems found are those of the offending arguments, one for each of them and in order. -/
theorem describes_problems (supplied : List (String × Value)) (declared : List (String × Argument))
    (depth : Nat) :
    List.Forall₂ (Describes supplied depth) (declared.filterMap (problem? supplied depth))
      (declared.filter fun entry => Offends supplied entry) := by
  induction declared with
  | nil => exact .nil
  | cons entry rest ih =>
    rcases problem?_cases supplied depth entry with ⟨problem, hproblem, hdescribes⟩ |
      ⟨hnone, hoffends⟩
    · rw [List.filterMap_cons_some hproblem,
        List.filter_cons_of_pos (by simpa using hdescribes.offends)]
      exact .cons hdescribes ih
    · rw [List.filterMap_cons_none hnone, List.filter_cons_of_neg (by simpa using hoffends)]
      exact ih

theorem problems_eq_nil_iff :
    declared.filterMap (problem? supplied depth) = [] ↔
      ∀ entry ∈ declared, ¬Offends supplied entry := by
  rw [List.filterMap_eq_nil_iff]
  refine forall₂_congr fun entry _ => ?_
  rcases problem?_cases supplied depth entry with ⟨problem, hproblem, hdescribes⟩ |
    ⟨hnone, hoffends⟩
  · simp [hproblem, hdescribes.offends]
  · simp [hnone, hoffends]

/-- The check breaks off at the first argument with a value that cannot be shown. -/
def FirstObstructs (supplied : List (String × Value)) (declared : List (String × Argument))
    (depth : Nat) (reason : Value.Unshown) : Prop :=
  ∃ before entry after, declared = before ++ entry :: after ∧
    (∀ earlier ∈ before, ∀ other, ¬Obstructs supplied depth other earlier) ∧
      Obstructs supplied depth reason entry

/-- Whether the check breaks off at an argument, and why. -/
theorem obstruction_eq_some {reason : Value.Unshown} :
    (problem? supplied depth entry).bind Problem.unshown? = some reason ↔
      Obstructs supplied depth reason entry := by
  rcases problem?_cases supplied depth entry with ⟨problem, hproblem, hdescribes⟩ |
    ⟨hnone, hoffends⟩
  · rw [hproblem, Option.bind_some, hdescribes.unshown?_eq_some]
  · rw [hnone]
    exact ⟨nofun, fun h => absurd h.offends hoffends⟩

theorem findSome?_problems (supplied : List (String × Value)) (declared : List (String × Argument))
    (depth : Nat) :
    (declared.filterMap (problem? supplied depth)).findSome? Problem.unshown? =
      declared.findSome? fun entry => (problem? supplied depth entry).bind Problem.unshown? := by
  rw [← List.head?_filterMap, List.filterMap_filterMap, List.head?_filterMap]

theorem obstruction_eq_none :
    (problem? supplied depth entry).bind Problem.unshown? = none ↔
      ∀ reason, ¬Obstructs supplied depth reason entry := by
  simp only [Option.eq_none_iff_forall_ne_some, ne_eq, obstruction_eq_some]

theorem firstUnshown_eq_some {reason : Value.Unshown} :
    (declared.filterMap (problem? supplied depth)).findSome? Problem.unshown? = some reason ↔
      FirstObstructs supplied declared depth reason := by
  rw [findSome?_problems, List.findSome?_eq_some_iff]
  simp only [obstruction_eq_some, obstruction_eq_none, FirstObstructs, and_comm]

theorem firstUnshown_eq_none :
    (declared.filterMap (problem? supplied depth)).findSome? Problem.unshown? = none ↔
      ∀ entry ∈ declared, ∀ reason, ¬Obstructs supplied depth reason entry := by
  rw [findSome?_problems, List.findSome?_eq_none_iff]
  simp only [obstruction_eq_none]

/-- What is returned for a declared argument. -/
structure Provides (supplied : List (String × Value)) (returned : String × Value)
    (entry : String × Argument) : Prop where
  name : returned.1 = entry.1
  value : value? supplied entry.1 entry.2 = some returned.2
  fits : entry.2.Fits returned.2

theorem fits_of_value? {name : String} (hsound : a.IsSound)
    (hinnocent : ¬Offends supplied (name, a)) (hvalue : value? supplied name a = some v) :
    a.Fits v := by
  rcases Option.or_eq_some_iff.mp hvalue with hsupplied | ⟨_, hdefault⟩
  · by_contra hunfit
    exact hinnocent (.inl ⟨v, hsupplied, hunfit⟩)
  · split at hdefault
    · cases hdefault
    · rename_i hnull
      cases hdefault
      exact accepts_iff_fits.mp (hsound.resolve_left hnull)

theorem provides_given (hsound : ∀ entry ∈ declared, entry.2.IsSound)
    (hinnocent : ∀ entry ∈ declared, ¬Offends supplied entry) :
    List.Forall₂ (Provides supplied) (given supplied declared)
      (declared.filter fun entry => (value? supplied entry.1 entry.2).isSome) := by
  induction declared with
  | nil => exact .nil
  | cons entry rest ih =>
    obtain ⟨name, a⟩ := entry
    rw [List.forall_mem_cons] at hsound hinnocent
    have hrest := ih hsound.2 hinnocent.2
    rw [given_cons]
    cases hvalue : value? supplied name a with
    | some v =>
      rw [List.filter_cons_of_pos (by simp [hvalue])]
      exact .cons ⟨rfl, hvalue, fits_of_value? hsound.1 hinnocent.1 hvalue⟩ hrest
    | none =>
      rw [List.filter_cons_of_neg (by simp [hvalue])]
      exact hrest

theorem ofProblems_eq_manifest {moduleName : String} {problems : List Problem}
    {fault : ManifestFault} :
    Failure.ofProblems moduleName problems = .manifest fault ↔
      problems.findSome? Problem.unshown? = none ∧ fault = .arguments moduleName problems := by
  unfold Failure.ofProblems
  split
  · simp [*]
  · simp [*, eq_comm]

theorem ofProblems_eq_accident {moduleName : String} {problems : List Problem}
    {reason : Value.Unshown} :
    Failure.ofProblems moduleName problems = .accident (.ofUnshown reason) ↔
      problems.findSome? Problem.unshown? = some reason := by
  have hinj : ∀ other : Value.Unshown,
      Accident.ofUnshown other = Accident.ofUnshown reason ↔ other = reason := by
    intro other
    cases other <;> cases reason <;> simp [Accident.ofUnshown]
  unfold Failure.ofProblems
  split
  · simp [*]
  · simp [*]

/-- The outcome of settling the values of arguments, by the problems found. -/
theorem settle_eq (supplied : List (String × Value)) (declared : List (String × Argument))
    (moduleName : String) (depth : Nat) :
    settle supplied declared moduleName depth =
      if declared.filterMap (problem? supplied depth) = [] then .ok (given supplied declared)
      else .error (.ofProblems moduleName (declared.filterMap (problem? supplied depth))) := by
  unfold settle
  rw [resolve_eq]
  split <;> rfl

theorem settle_eq_ok {moduleName : String} {values : List (String × Value)} :
    settle supplied declared moduleName depth = .ok values ↔
      resolve supplied declared depth = .ok values := by
  rw [settle_eq, resolve_eq]
  split <;> simp

/-- How deeply brackets may be nested does not matter where nothing has to be shown. -/
theorem exists_settle (supplied : List (String × Value)) (declared : List (String × Argument))
    (moduleName : String) (depth : Nat) :
    (∃ values, settle supplied declared moduleName depth = .ok values) ↔
      ∀ entry ∈ declared, ¬Offends supplied entry := by
  rw [settle_eq, ← @problems_eq_nil_iff supplied declared depth]
  split <;> simp [*]

/-- The library reports the problems with the arguments of a module exactly if some argument offends
and every value that does not fit can be shown. The report then has one line for each argument that
offends, in order of declaration. The first value that does not fit and cannot be shown ends the
check with an accident. Otherwise exactly the arguments that were supplied or have a default get a
value, in the same order, and each value fits. -/
theorem settle_lawful (supplied : List (String × Value)) (declared : List (String × Argument))
    (moduleName : String) (depth : Nat) (hsound : ∀ entry ∈ declared, entry.2.IsSound) :
    ((∃ fault, settle supplied declared moduleName depth = .error (.manifest fault)) ↔
        (∃ entry ∈ declared, Offends supplied entry) ∧
          ∀ entry ∈ declared, ∀ reason, ¬Obstructs supplied depth reason entry) ∧
      (∀ fault, settle supplied declared moduleName depth = .error (.manifest fault) →
        ∃ problems, fault = .arguments moduleName problems ∧
          List.Forall₂ (Describes supplied depth) problems
            (declared.filter fun entry => Offends supplied entry) ∧
          (Failure.manifest fault).message =
            "invalid arguments for module " ++ moduleName ++ ":\n" ++
              "\n".intercalate (problems.map fun problem => "  - " ++ problem.message)) ∧
      (∀ reason,
        settle supplied declared moduleName depth = .error (.accident (.ofUnshown reason)) ↔
          FirstObstructs supplied declared depth reason) ∧
      ((∀ entry ∈ declared, ¬Offends supplied entry) →
        ∃ values, settle supplied declared moduleName depth = .ok values ∧
          List.Forall₂ (Provides supplied) values
            (declared.filter fun entry => (value? supplied entry.1 entry.2).isSome)) := by
  rw [settle_eq]
  by_cases hnone : declared.filterMap (problem? supplied depth) = []
  · have hinnocent := problems_eq_nil_iff.mp hnone
    rw [if_pos hnone]
    refine ⟨?_, nofun, fun reason => ?_, fun _ => ⟨_, rfl, provides_given hsound hinnocent⟩⟩
    · simp only [reduceCtorEq, exists_false, false_iff]
      rintro ⟨⟨entry, hmem, hoffends⟩, _⟩
      exact hinnocent entry hmem hoffends
    · rw [← firstUnshown_eq_some, hnone]
      simp
  · -- Some argument offends. Whether this is reported depends on what can be shown.
    rw [if_neg hnone]
    have hoffends : ∃ entry ∈ declared, Offends supplied entry := by
      by_contra hinnocent
      exact hnone (problems_eq_nil_iff.mpr fun entry hmem hoffends => hinnocent ⟨entry, hmem, hoffends⟩)
    simp only [Except.error.injEq, ofProblems_eq_manifest, ofProblems_eq_accident,
      firstUnshown_eq_none, firstUnshown_eq_some]
    refine ⟨by simp [hoffends], ?_, fun _ => trivial, ?_⟩
    · rintro fault ⟨_, rfl⟩
      exact ⟨_, rfl, describes_problems supplied declared depth, rfl⟩
    · intro hinnocent
      obtain ⟨entry, hmem, hoffends⟩ := hoffends
      exact absurd hoffends (hinnocent entry hmem)

/-- Arguments with a choice, a default, and a value that must be there. -/
def deckArguments : List (String × Argument) :=
  [("tier", { values := ["free", "paid"] }), ("replicas", { kind := .integer, default := .int 1 }),
    ("name", { required := true }), ("debug", { kind := .boolean })]

def deckSupplied : List (String × Value) :=
  [("colour", .int 7), ("name", .null), ("replicas", .bool true), ("tier", .text "paid")]

/-- A number with too many digits where a text is wanted. -/
def deckOverlong : List (String × Value) :=
  [("replicas", .bool true), ("tier", .int Text.digitBound)]

theorem obstructs_overlong {name : String} {n : Nat}
    (hsupplied : supplied? supplied name = some (.int n)) (hkind : a.kind.accepts (.int n) = false)
    (hlong : Text.digitBound ≤ n) :
    Obstructs supplied depth .longNumber (name, a) := by
  refine ⟨.int n, hsupplied, fun hfits => ?_, ?_⟩
  · simp [hfits.kind] at hkind
  · simpa [Value.shown, Value.shownInt] using hlong

/-- A boolean is no integer, and null is no value. `colour` is not asked for and so does no harm,
and without the other two the default comes in. -/
theorem settle_lawful_deck :
    (∃ problems, settle deckSupplied deckArguments "a" = .error (.manifest (.arguments "a" problems)) ∧
      List.Forall₂ (Describes deckSupplied Nesting.limit) problems
        [("replicas", { kind := .integer, default := .int 1 }), ("name", { required := true })]) ∧
      settle deckOverlong deckArguments "a" = .error (.accident (.badValue Text.longNumber)) ∧
      ∃ values,
        settle [("colour", .int 7), ("name", .text "svc")] deckArguments "a" = .ok values ∧
        List.Forall₂ (Provides [("colour", .int 7), ("name", .text "svc")]) values
          [("replicas", { kind := .integer, default := .int 1 }), ("name", { required := true })] := by
  have hsound : ∀ entry ∈ deckArguments, entry.2.IsSound := by
    unfold IsSound
    decide +kernel
  obtain ⟨hfails, hproblems, _⟩ := settle_lawful deckSupplied deckArguments "a" Nesting.limit hsound
  obtain ⟨_, _, hbreaksOff, _⟩ := settle_lawful deckOverlong deckArguments "a" Nesting.limit hsound
  obtain ⟨_, _, _, hvalues⟩ :=
    settle_lawful [("colour", .int 7), ("name", .text "svc")] deckArguments "a" Nesting.limit hsound
  refine ⟨?_, ?_, ?_⟩
  · have hshown : ∀ entry ∈ deckArguments, ∀ reason,
        ¬Obstructs deckSupplied Nesting.limit reason entry :=
      firstUnshown_eq_none.mp (by decide +kernel)
    obtain ⟨fault, herror⟩ :=
      hfails.mpr ⟨⟨("name", { required := true }), by simp [deckArguments], by decide +kernel⟩, hshown⟩
    obtain ⟨problems, rfl, hdescribes, _⟩ := hproblems fault herror
    exact ⟨problems, herror, hdescribes⟩
  · exact (hbreaksOff .longNumber).mpr ⟨[], _, _, rfl, by simp, obstructs_overlong rfl rfl (Nat.le_refl _)⟩
  · exact hvalues (by decide +kernel)

/-- A whole number stands where a text is wanted. The report of that cannot be written, since it
would have to show the number, and so the library reports nothing. -/
theorem overlong_unlisted :
    (∀ entry ∈ [("size", ({} : Argument))], entry.2.IsSound) ∧
      Offends [("size", .int Text.digitBound)] ("size", {}) ∧
      ∀ fault, settle [("size", .int Text.digitBound)] [("size", {})] "a" ≠
        .error (.manifest fault) := by
  have hobstructs : Obstructs [("size", .int Text.digitBound)] Nesting.limit .longNumber ("size", {}) :=
    obstructs_overlong rfl rfl (Nat.le_refl _)
  refine ⟨by unfold IsSound; decide +kernel, hobstructs.offends, fun fault h => ?_⟩
  rw [settle_eq, if_neg fun hnil => problems_eq_nil_iff.mp hnil _ (by simp) hobstructs.offends,
    Except.error.injEq, ofProblems_eq_manifest, firstUnshown_eq_none] at h
  exact h.1 _ (by simp) _ hobstructs

end Argument

end ModulePins
