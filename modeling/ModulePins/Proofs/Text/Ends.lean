import Mathlib.Data.List.TakeWhile
import ModulePins.Text.Blank

/-!
# Ends of texts

A run at the head of a text is read up to where it ends. What is dropped at both ends of a text
leaves what stands between, and blanks beside a text make no difference to it. Texts put together of
pieces have their ends from the pieces.
-/

namespace ModulePins.Text

variable {p : Char → Bool} {cs ds : List Char} {c : Char}

/-! ### Runs at an end -/

theorem span_append {rest : List Char} (hall : ∀ c ∈ cs, p c = true)
    (hstop : rest.takeWhile p = []) :
    (cs ++ rest).takeWhile p = cs ∧ (cs ++ rest).dropWhile p = rest := by
  have hsplit := List.takeWhile_append_dropWhile (p := p) (l := rest)
  have hrest : rest.dropWhile p = rest := by rwa [hstop, List.nil_append] at hsplit
  rw [List.takeWhile_append_of_pos hall, List.dropWhile_append_of_pos hall, hstop, hrest,
    List.append_nil]
  exact ⟨rfl, rfl⟩

theorem span_append_cons (hall : ∀ c ∈ cs, p c = true) (hstop : p c = false) (rest : List Char) :
    (cs ++ c :: rest).takeWhile p = cs ∧ (cs ++ c :: rest).dropWhile p = c :: rest :=
  span_append hall (List.takeWhile_cons_of_neg (by simp [hstop]))

theorem dropWhile_of_head? (h : cs.head?.any p = false) : cs.dropWhile p = cs := by
  cases cs with
  | nil => rfl
  | cons c cs =>
    rw [List.dropWhile_cons_of_neg]
    simpa using h

/-- Between two runs that are dropped stands a text that neither begins nor ends like them. -/
theorem dropWhile_both_ends (hcs : ∀ c ∈ cs, p c = true) (hds : ∀ d ∈ ds, p d = true)
    {mid : List Char} (hhead : mid.head?.any p = false) (hlast : mid.getLast?.any p = false) :
    (((cs ++ (mid ++ ds)).dropWhile p).reverse.dropWhile p).reverse = mid := by
  rw [List.dropWhile_append_of_pos hcs]
  by_cases hmid : mid = []
  · rw [hmid, List.nil_append, List.dropWhile_eq_nil_iff.mpr hds]
    rfl
  · have hfront : (mid ++ ds).head?.any p = false := by
      rwa [List.head?_append, Option.or_of_isSome (by simpa using hmid)]
    rw [dropWhile_of_head? hfront, List.reverse_append,
      List.dropWhile_append_of_pos (by simpa using hds),
      dropWhile_of_head? (by rwa [List.head?_reverse]), List.reverse_reverse]

/-! ### Blanks at the ends -/

theorem trim_between (hcs : ∀ c ∈ cs, isBlank c = true) (hds : ∀ d ∈ ds, isBlank d = true)
    {mid : List Char} (hhead : mid.head?.any isBlank = false)
    (hlast : mid.getLast?.any isBlank = false) : trim (cs ++ (mid ++ ds)) = mid :=
  dropWhile_both_ends hcs hds hhead hlast

theorem trim_of_ends (hhead : cs.head?.any isBlank = false)
    (hlast : cs.getLast?.any isBlank = false) : trim cs = cs := by
  have h := trim_between (List.forall_mem_nil _) (List.forall_mem_nil _) hhead hlast
  rwa [List.append_nil] at h

theorem trim_of_not_blank (h : ∀ c ∈ cs, isBlank c = false) : trim cs = cs := by
  refine trim_of_ends ?_ ?_
  · exact (Option.any_eq_false _ _).mpr fun c hc => h c (List.mem_of_mem_head? hc)
  · exact (Option.any_eq_false _ _).mpr fun c hc => h c (List.mem_of_mem_getLast? hc)

theorem trim_append_blank (h : ∀ d ∈ ds, isBlank d = true) (cs : List Char) :
    trim (cs ++ ds) = trim cs := by
  have hend : ∀ front : List Char, trimEnd (front ++ ds) = trimEnd front := fun front => by
    rw [trimEnd, List.reverse_append, List.dropWhile_append_of_pos (by simpa using h), trimEnd]
  rw [trim, trim, List.dropWhile_append]
  split
  · rename_i hempty
    rw [List.isEmpty_iff.mp hempty, List.dropWhile_eq_nil_iff.mpr h]
  · exact hend _

theorem trim_blank_append (h : ∀ c ∈ cs, isBlank c = true) (ds : List Char) :
    trim (cs ++ ds) = trim ds := by
  rw [trim, List.dropWhile_append_of_pos h, trim]

theorem mem_of_mem_trim (h : c ∈ trim cs) : c ∈ cs := by
  rw [trim, trimEnd, List.mem_reverse] at h
  have hmem := List.mem_reverse.mp ((List.dropWhile_suffix _).subset h)
  exact (List.dropWhile_suffix _).subset hmem

theorem mem_trim (hc : isBlank c = false) (h : c ∈ cs) : c ∈ trim cs := by
  have hdrop : ∀ ds : List Char, c ∈ ds → c ∈ ds.dropWhile isBlank := by
    intro ds hds
    rw [← List.takeWhile_append_dropWhile (p := isBlank) (l := ds), List.mem_append] at hds
    refine hds.resolve_left fun htake => ?_
    have := List.all_eq_true.mp List.all_takeWhile c htake
    rw [hc] at this
    cases this
  rw [trim, trimEnd, List.mem_reverse]
  exact hdrop _ (List.mem_reverse.mpr (hdrop _ h))

/-! ### Pieces and what separates them -/

theorem mem_intercalate {sep c : Char} {pieces : List (List Char)}
    (h : c ∈ [sep].intercalate pieces) : c = sep ∨ ∃ piece ∈ pieces, c ∈ piece := by
  induction pieces with
  | nil => simp at h
  | cons piece pieces ih =>
    by_cases hne : pieces = []
    · subst hne
      exact .inr ⟨piece, List.mem_cons_self, by simpa using h⟩
    · rw [List.intercalate_cons_of_ne_nil hne, List.mem_append, List.mem_append,
        List.mem_singleton] at h
      rcases h with (h | h) | h
      · exact .inr ⟨piece, List.mem_cons_self, h⟩
      · exact .inl h
      · refine (ih h).imp_right ?_
        rintro ⟨piece', hpiece, hc⟩
        exact ⟨piece', List.mem_cons_of_mem _ hpiece, hc⟩

theorem mem_intercalate_of_mem {sep c : Char} {piece : List Char} {pieces : List (List Char)}
    (hpiece : piece ∈ pieces) (hc : c ∈ piece) : c ∈ [sep].intercalate pieces := by
  induction pieces with
  | nil => cases hpiece
  | cons first pieces ih =>
    by_cases hne : pieces = []
    · subst hne
      rw [List.mem_singleton] at hpiece
      simpa [← hpiece] using hc
    · rw [List.intercalate_cons_of_ne_nil hne, List.mem_append]
      rcases List.mem_cons.mp hpiece with rfl | hpiece
      · exact .inl (List.mem_append_left _ hc)
      · exact .inr (ih hpiece)

theorem intercalate_ne_nil {sep : Char} {piece : List Char} {pieces : List (List Char)}
    (hpiece : piece ∈ pieces) (hne : piece ≠ []) : [sep].intercalate pieces ≠ [] := by
  obtain ⟨c, hc⟩ := List.exists_mem_of_ne_nil _ hne
  exact List.ne_nil_of_mem (mem_intercalate_of_mem hpiece hc)

theorem ends_intercalate (sep : Char) {pieces : List (List Char)}
    (h : ∀ piece ∈ pieces, piece ≠ [] ∧ ∀ c ∈ piece, p c = false) :
    ([sep].intercalate pieces).head?.any p = false ∧
      ([sep].intercalate pieces).getLast?.any p = false := by
  induction pieces with
  | nil => exact ⟨rfl, rfl⟩
  | cons piece pieces ih =>
    obtain ⟨hne, hpiece⟩ := h piece List.mem_cons_self
    have hhead : piece.head?.any p = false :=
      (Option.any_eq_false _ _).mpr fun c hc => hpiece c (List.mem_of_mem_head? hc)
    by_cases hempty : pieces = []
    · rw [hempty, List.intercalate_singleton]
      exact ⟨hhead, (Option.any_eq_false _ _).mpr fun c hc => hpiece c (List.mem_of_mem_getLast? hc)⟩
    · have hrest : [sep].intercalate pieces ≠ [] := by
        obtain ⟨next, hnext⟩ := List.exists_mem_of_ne_nil _ hempty
        exact intercalate_ne_nil hnext (h next (List.mem_cons_of_mem _ hnext)).1
      rw [List.intercalate_cons_of_ne_nil hempty, List.append_assoc, List.head?_append,
        Option.or_of_isSome (by simpa using hne), ← List.append_assoc, List.getLast?_append,
        Option.or_of_isSome (by simpa using hrest)]
      exact ⟨hhead, (ih fun piece' hpiece' => h piece' (List.mem_cons_of_mem _ hpiece')).2⟩

end ModulePins.Text
