import ModulePins.Proofs.Resolution.Ending
import ModulePins.Proofs.Resolution.Steady

/-!
# Nothing on record is forgotten

In the course of a run histories only become longer, and modules stay where they are fetched from.
So the last agenda of a run tells in which places of the cache picks were kept at any time, and
whether two modules ever shared one.
-/

namespace ModulePins

namespace Agenda

/-- What the agenda `a` has on record is on record in `b`. -/
structure Grows (a b : Agenda) : Prop where
  replacements : b.replacements = a.replacements
  entries : ∀ name e, a.find? name = some e →
    ∃ e', b.find? name = some e' ∧ e'.given = e.given ∧ e.history <+: e'.history

/-- Repositories with channels for which picks were looked up, as the histories tell. -/
def kept (a : Agenda) : List (String × String) :=
  a.entries.entries.flatMap fun (name, e) =>
    (a.uriOf name, "") :: e.history.map fun d => (a.uriOf name, d.channel)

/-- No two modules that are not given are fetched from one place. -/
def Apart (a : Agenda) : Prop :=
  ∀ x ∈ a.entries.entries, ∀ y ∈ a.entries.entries, x.2.given = false → y.2.given = false →
    a.uriOf x.1 = a.uriOf y.1 → x.1 = y.1

instance (a : Agenda) : Decidable a.Apart :=
  inferInstanceAs (Decidable (∀ x ∈ a.entries.entries, ∀ y ∈ a.entries.entries,
    x.2.given = false → y.2.given = false → a.uriOf x.1 = a.uriOf y.1 → x.1 = y.1))

variable {a b c : Agenda} {name other : String} {e e' : Entry}

theorem Grows.refl (a : Agenda) : a.Grows a :=
  ⟨rfl, fun _ e h => ⟨e, h, rfl, List.prefix_rfl⟩⟩

theorem Grows.trans (h : a.Grows b) (h' : b.Grows c) : a.Grows c where
  replacements := h'.replacements.trans h.replacements
  entries := by
    intro name e hfind
    obtain ⟨mid, hmid, hgiven, hhistory⟩ := h.entries name e hfind
    obtain ⟨last, hlast, hgiven', hhistory'⟩ := h'.entries name mid hmid
    exact ⟨last, hlast, hgiven'.trans hgiven, hhistory.trans hhistory'⟩

theorem Grows.mem_constraints (h : a.Grows b) {text : String}
    (htext : text ∈ (a.history name).constraints) : text ∈ (b.history name).constraints := by
  rw [History.mem_constraints] at htext ⊢
  obtain ⟨hne, d, hd, hconstraint⟩ := htext
  cases hfind : a.find? name with
  | none => simp [history, hfind] at hd
  | some e =>
    rw [a.history_of_find? name hfind] at hd
    obtain ⟨last, hlast, _, hhistory⟩ := h.entries name e hfind
    rw [b.history_of_find? name hlast]
    exact ⟨hne, d, hhistory.subset hd, hconstraint⟩

/-- Where the pick of a module is kept can be told from any later agenda. -/
theorem Grows.mem_kept (h : a.Grows b) (hfind : a.find? name = some e) :
    (b.uriOf name, e.history.channel) ∈ b.kept := by
  obtain ⟨last, hlast, _, hhistory⟩ := h.entries name e hfind
  refine List.mem_flatMap.mpr ⟨(name, last), Ledger.mem_entries_of_get? hlast, ?_⟩
  rcases e.history.channel_eq_or_mem with hchannel | ⟨d, hd, hchannel⟩
  · rw [hchannel]
    exact List.mem_cons_self
  · rw [← hchannel]
    exact List.mem_cons_of_mem _ (List.mem_map_of_mem (hhistory.subset hd))

theorem Apart.eq_of_uriOf (h : a.Apart) (hfind : a.find? name = some e)
    (hfind' : a.find? other = some e') (hgiven : e.given = false) (hgiven' : e'.given = false)
    (huri : a.uriOf name = a.uriOf other) : name = other :=
  h _ (Ledger.mem_entries_of_get? hfind) _ (Ledger.mem_entries_of_get? hfind') hgiven hgiven' huri

end Agenda

namespace Run

variable {s t : Surroundings} {r r' : Run}

theorem Transition.grows (h : Transition s r r') (hfailure : r'.failure = none) :
    r.agenda.Grows r'.agenda := by
  cases h with
  | lost _ _ => exact ⟨rfl, fun _ e h => ⟨e, h, rfl, List.prefix_rfl⟩⟩
  | failed hfailed _ => simp [hfailure] at hfailed
  | @given _ _ _ _ m before _ h =>
    refine ⟨h.replacements, ?_⟩
    intro name e hfind
    rw [h.find]
    by_cases hname : name = m.name
    · subst hname
      rw [h.was, Option.some.injEq] at hfind
      subst hfind
      exact ⟨_, if_pos rfl, rfl, List.prefix_rfl⟩
    · exact ⟨e, by rw [if_neg hname, hfind], rfl, List.prefix_rfl⟩
  | @picked _ _ _ d m before pick _ h =>
    refine ⟨h.replacements, ?_⟩
    intro name e hfind
    rw [h.find]
    by_cases hname : name = m.name
    · have hbefore : before = e := by
        rw [h.was, ← h.own, ← hname, hfind, Option.getD_some]
      subst hbefore
      exact ⟨_, if_pos hname, h.notGiven.symm, List.prefix_append _ _⟩
    · exact ⟨e, by rw [if_neg hname, hfind], rfl, List.prefix_rfl⟩

theorem Reachable.grows {start : Run} (hsound : start.agenda.IsSound) (h : Reachable s start t r)
    (hfailure : r.failure = none) : start.agenda.Grows r.agenda := by
  refine invariant_of_transition (P := fun r => start.agenda.Grows r.agenda) hsound
    (Agenda.Grows.refl _) ?_ h hfailure
  intro _ _ r r' _ _ hr htransition hnone
  exact hr.trans (htransition.grows hnone)

section Step

variable {task : Task} {rest : List Task} {d : Demand} {m : PinnedModule} {before : Entry}
variable {pick : Pick} {fetched : Option ModuleManifest} {last : Agenda}

theorem PickedStep.find_self (h : PickedStep s r r' task rest d m before pick fetched) :
    r'.agenda.find? m.name = some (settledEntry (before.history ++ [d]) pick m) := by
  rw [h.find, if_pos rfl]

theorem PickedStep.shape_last (h : PickedStep s r r' task rest d m before pick fetched)
    (hgrows : r'.agenda.Grows last) : m = pick.pinned m.name (last.uriOf m.name) :=
  h.shape_of (hgrows.replacements.trans h.replacements)

theorem PickedStep.uri_last (h : PickedStep s r r' task rest d m before pick fetched)
    (hgrows : r'.agenda.Grows last) : m.uri = last.uriOf m.name :=
  congrArg PinnedModule.uri (h.shape_last hgrows)

theorem PickedStep.mem_kept (h : PickedStep s r r' task rest d m before pick fetched)
    (hgrows : r'.agenda.Grows last) :
    (m.uri, History.channel (before.history ++ [d])) ∈ last.kept := by
  rw [h.uri_last hgrows]
  exact hgrows.mem_kept h.find_self

/-- Another module that is fetched from the same place is the same module. -/
theorem PickedStep.eq_of_uri (h : PickedStep s r r' task rest d m before pick fetched)
    (hgrows : r'.agenda.Grows last) (hlocated : last.Apart) {name : String} {e : Entry}
    (hfind : last.find? name = some e) (hgiven : e.given = false)
    (huri : last.uriOf name = m.uri) : name = m.name := by
  obtain ⟨own, hown, hgiven', _⟩ := hgrows.entries _ _ h.find_self
  exact hlocated.eq_of_uriOf hfind hown hgiven hgiven' (huri.trans (h.uri_last hgrows))

/-- Other modules that are on record by then are fetched from other places. -/
theorem PickedStep.uri_ne (h : PickedStep s r r' task rest d m before pick fetched)
    (hgrows : r'.agenda.Grows last) (hlocated : last.Apart) (hbefore : r.agenda.Grows last)
    {name : String} {e : Entry} (hfind : r.agenda.find? name = some e) (hgiven : e.given = false)
    (hne : name ≠ m.name) : last.uriOf name ≠ last.uriOf m.name := by
  intro huri
  obtain ⟨later, hlater, hgiven', _⟩ := hbefore.entries name e hfind
  exact hne (h.eq_of_uri hgrows hlocated hlater (hgiven'.trans hgiven)
    (huri.trans (h.uri_last hgrows).symm))

end Step

end Run

end ModulePins
