import ModulePins.Checked

/-!
# When a check succeeds

A check that is put together from parts succeeds exactly when its parts do, and its result is put
together from theirs.
-/

namespace ModulePins.Checked

variable {α β : Type} {x : Checked α} {b : β}

@[simp]
theorem outcome_ok (a : α) : (Checked.ok a).outcome = .ok a := rfl

theorem seq_eq_ok {f : Checked (α → β)} :
    (f <*> x).outcome = .ok b ↔ ∃ g a, f.outcome = .ok g ∧ x.outcome = .ok a ∧ g a = b := by
  change (apply f x).outcome = .ok b ↔ _
  unfold apply
  cases f.outcome with
  | error issues => cases x.outcome <;> simp
  | ok g => cases x.outcome <;> simp

/-- The issues of a function are those of its application to what has passed. -/
theorem seq_eq_error {f : Checked (α → β)} {issues : List Issue} {a : α}
    (hf : f.outcome = .error issues) (hx : x.outcome = .ok a) :
    (f <*> x).outcome = .error issues := by
  change (apply f x).outcome = .error issues
  simp [apply, hf, hx]

theorem map_eq_error {g : α → β} {issues : List Issue} (hx : x.outcome = .error issues) :
    (g <$> x).outcome = .error issues := by
  change ((Checked.ok g) <*> x).outcome = .error issues
  change (apply (.ok g) x).outcome = .error issues
  simp [apply, hx]

theorem map_eq_ok {g : α → β} :
    (g <$> x).outcome = .ok b ↔ ∃ a, x.outcome = .ok a ∧ g a = b := by
  change ((Checked.ok g) <*> x).outcome = .ok b ↔ _
  simp [seq_eq_ok]

theorem andThen_eq_ok {f : α → Checked β} :
    (x.andThen f).outcome = .ok b ↔ ∃ a, x.outcome = .ok a ∧ (f a).outcome = .ok b := by
  unfold andThen
  cases x.outcome <;> simp

@[simp]
theorem under_eq_ok {step : Step} {a : α} :
    (under step x).outcome = .ok a ↔ x.outcome = .ok a := by
  unfold under
  dsimp only
  cases x.outcome with
  | error issues => exact ⟨nofun, nofun⟩
  | ok b => exact Iff.rfl

theorem optional_eq_ok {name : String} {default a : α} {f : Value → Checked α}
    {entries : List (Value × Value)} :
    (optional name default f entries).outcome = .ok a ↔
      (∃ v, Value.field? entries name = some v ∧ (f v).outcome = .ok a) ∨
        Value.field? entries name = none ∧ a = default := by
  unfold optional
  cases Value.field? entries name with
  | none => simp [eq_comm]
  | some v => simp

end ModulePins.Checked
