import ModulePins.Manifest.Argument

/-!
# Checking the value of an argument

A check finds that a value fits, or finds one thing against it: that it is of the wrong kind, that
it is none of the allowed values, or that it would have to be shown and cannot be. A value that fits
does so however deeply brackets may be nested, since only lists and maps have brackets and for those
there is no choice of values.
-/

namespace ModulePins

theorem Value.spelled_eq_shown {v : Value} (h : ∀ s, v ≠ .text s) (depth : Nat) :
    v.spelled depth = v.shown depth := by
  unfold spelled
  split
  · exact absurd rfl (h _)
  · rfl

theorem Value.exists_shown_of_spelled {v : Value} {depth : Nat} {s : String}
    (h : v.spelled depth = .ok s) : ∃ quoted, v.shown depth = .ok quoted := by
  cases v with
  | text t => exact ⟨_, rfl⟩
  | _ => exact ⟨s, h⟩

theorem ArgumentKind.spelled_eq {kind : ArgumentKind} {v : Value} (h : kind.accepts v = true)
    (hscalar : kind.isScalar = true) (depth depth' : Nat) :
    v.spelled depth = v.spelled depth' := by
  unfold accepts at h
  split at h <;> simp [isScalar] at hscalar h <;> simp [Value.spelled, Value.shown]

namespace Argument

variable {a : Argument} {v : Value} {depth : Nat}

/-- A value of the right kind and, where there is a choice of values, one of them. -/
structure Fits (a : Argument) (v : Value) : Prop where
  kind : a.kind.accepts v = true
  chosen : a.hasChoice = true → ∃ s ∈ a.values, ∀ depth, v.spelled depth = .ok s

/-- What an objection says of a value. -/
inductive Finds (a : Argument) (v : Value) (depth : Nat) : Objection → Prop
  | wrongKind {quoted : String} (hkind : a.kind.accepts v = false)
      (hshown : v.shown depth = .ok quoted) : Finds a v depth (.wrongKind quoted a.kind)
  | notAllowed {quoted spelled : String} (hkind : a.kind.accepts v = true)
      (hchoice : a.hasChoice = true) (hspelled : v.spelled depth = .ok spelled)
      (hnot : spelled ∉ a.values) (hshown : v.shown depth = .ok quoted) :
      Finds a v depth (.notAllowed quoted a.values)
  | unshown {reason : Value.Unshown} (hneeded : a.kind.accepts v = false ∨ a.hasChoice = true)
      (hshown : v.shown depth = .error reason) : Finds a v depth (.unshown reason)

theorem Finds.not_fits {objection : Objection} (h : a.Finds v depth objection) : ¬a.Fits v := by
  intro hfits
  cases h with
  | wrongKind hkind _ => simp [hfits.kind] at hkind
  | notAllowed _ hchoice hspelled hnot _ =>
    obtain ⟨s, hs, hall⟩ := hfits.chosen hchoice
    rw [hall depth, Except.ok.injEq] at hspelled
    exact hnot (hspelled ▸ hs)
  | unshown hneeded hshown =>
    rcases hneeded with hkind | hchoice
    · simp [hfits.kind] at hkind
    · obtain ⟨s, _, hall⟩ := hfits.chosen hchoice
      obtain ⟨quoted, hquoted⟩ := Value.exists_shown_of_spelled (hall depth)
      simp [hshown] at hquoted

/-- A value fits, or there is one thing to be said against it. -/
theorem objection?_cases (a : Argument) (v : Value) (depth : Nat) :
    (a.objection? v depth = none ∧ a.Fits v) ∨
      ∃ objection, a.objection? v depth = some objection ∧ a.Finds v depth objection := by
  unfold objection? check
  cases hkind : a.kind.accepts v with
  | false =>
    right
    cases hshown : v.shown depth with
    | error reason => exact ⟨_, rfl, .unshown (.inl hkind) hshown⟩
    | ok quoted => exact ⟨_, rfl, .wrongKind hkind hshown⟩
  | true =>
    cases hchoice : a.hasChoice with
    | false => exact .inl ⟨rfl, hkind, fun h => by simp [hchoice] at h⟩
    | true =>
      have hscalar : a.kind.isScalar = true := by
        simp only [hasChoice, Bool.and_eq_true] at hchoice
        exact hchoice.2
      cases hspelled : v.spelled depth with
      | error reason =>
        refine .inr ⟨.unshown reason, rfl, .unshown (.inr hchoice) ?_⟩
        rw [← Value.spelled_eq_shown _ depth, hspelled]
        rintro s rfl
        cases hspelled
      | ok spelled =>
        by_cases hmem : spelled ∈ a.values
        · refine .inl ⟨by simp [bind, Except.bind, pure, Except.pure, hmem], hkind, fun _ =>
            ⟨spelled, hmem, fun other => ?_⟩⟩
          rw [ArgumentKind.spelled_eq hkind hscalar other depth, hspelled]
        · obtain ⟨quoted, hshown⟩ := Value.exists_shown_of_spelled hspelled
          refine .inr ⟨.notAllowed quoted a.values, ?_,
            .notAllowed hkind hchoice hspelled hmem hshown⟩
          simp [bind, Except.bind, pure, Except.pure, hmem, hshown]

theorem objection?_eq_none : a.objection? v depth = none ↔ a.Fits v := by
  rcases objection?_cases a v depth with ⟨hnone, hfits⟩ | ⟨objection, hsome, hfinds⟩
  · simp [hnone, hfits]
  · simp [hsome, hfinds.not_fits]

theorem accepts_iff_fits : a.accepts v depth = true ↔ a.Fits v := by
  rw [accepts, Option.isNone_iff_eq_none, objection?_eq_none]

instance (a : Argument) (v : Value) : Decidable (a.Fits v) :=
  decidable_of_iff _ (@accepts_iff_fits a v Nesting.limit)

end Argument

end ModulePins
