import ModulePins.Proofs.Yaml.ReadBack

/-!
# Moving over a text

What is left after moving past a class of characters, and where that stands when no line ends on the
way.
-/

namespace ModulePins.Yaml

/-- A character that takes a column of its own line. -/
def isInk (c : Char) : Bool :=
  !isBreak c && !isByteOrderMark c

namespace Cursor

variable {cur : Cursor} {c letter : Char} {cs rest : List Char} {p : Char → Bool}

@[simp]
theorem rest_skip (p : Char → Bool) (cur : Cursor) : (cur.skip p).rest = cur.rest.dropWhile p := by
  rw [skip, span, rest_advance]
  calc cur.rest.drop (cur.rest.takeWhile p).length
    _ = (cur.rest.takeWhile p ++ cur.rest.dropWhile p).drop (cur.rest.takeWhile p).length := by
      rw [List.takeWhile_append_dropWhile]
    _ = cur.rest.dropWhile p := List.drop_left

theorem rest_next_of_rest (h : cur.rest = c :: rest) : cur.next.rest = rest := by
  rw [rest_next, h, List.tail_cons]

theorem head?_next_of_rest (h : cur.rest = c :: letter :: rest) :
    cur.next.head? = some letter := by
  rw [head?, rest_next_of_rest h, List.head?_cons]

theorem next_of_ink (h : cur.rest = c :: rest) (hc : isInk c = true) :
    cur.next = { rest, index := cur.index + 1, line := cur.line, column := cur.column + 1 } := by
  simp only [isInk, Bool.and_eq_true, Bool.not_eq_true'] at hc
  unfold next
  split
  next hnil => simp [hnil] at h
  next d more hcons =>
    obtain ⟨rfl, rfl⟩ := List.cons.inj (hcons.symm.trans h)
    simp [hc.1, hc.2]

theorem next_of_feed (h : cur.rest = '\n' :: rest) :
    cur.next = { rest, index := cur.index + 1, line := cur.line + 1, column := 0 } := by
  unfold next
  split
  next hnil => simp [hnil] at h
  next d more hcons =>
    obtain ⟨rfl, rfl⟩ := List.cons.inj (hcons.symm.trans h)
    rfl

theorem advance_of_ink (h : cur.rest = cs ++ rest) (hcs : ∀ c ∈ cs, isInk c = true) :
    cur.advance cs.length =
      { rest, index := cur.index + cs.length, line := cur.line
        column := cur.column + cs.length } := by
  induction cs generalizing cur with
  | nil =>
    cases cur
    simp_all [advance]
  | cons c cs ih =>
    have hnext := next_of_ink h (hcs c List.mem_cons_self)
    have hrest : cur.next.rest = cs ++ rest := by rw [hnext]; rfl
    rw [List.length_cons, advance, ih hrest fun d hd => hcs d (List.mem_cons_of_mem _ hd), hnext]
    simp only [mk.injEq, true_and]
    omega

theorem span_of_ink (h : cur.rest = cs ++ rest) (hp : ∀ c ∈ cs, p c = true)
    (hrest : ∀ c ∈ rest.head?, p c = false) (hcs : ∀ c ∈ cs, isInk c = true) :
    cur.span p =
      (cs, { rest, index := cur.index + cs.length, line := cur.line
             column := cur.column + cs.length }) := by
  have htake : cur.rest.takeWhile p = cs := by
    rw [h, List.takeWhile_append_of_pos hp]
    cases rest with
    | nil => simp
    | cons c rest => simp [hrest c rfl]
  rw [span, htake, advance_of_ink h hcs]

theorem span_spaces {n : Nat} (h : cur.rest = List.replicate n ' ' ++ rest)
    (hrest : ∀ c ∈ rest.head?, c ≠ ' ') :
    cur.span (· == ' ') =
      (List.replicate n ' ', { rest, index := cur.index + n, line := cur.line
                               column := cur.column + n }) := by
  have hspace : ∀ c ∈ List.replicate n ' ', c = ' ' := fun _ => List.eq_of_mem_replicate
  have hink : isInk ' ' = true := rfl
  have hspan := span_of_ink (p := (· == ' ')) h (fun c hc => by simp [hspace c hc])
    (fun c hc => by simp [hrest c hc]) fun c hc => by rw [hspace c hc, hink]
  rwa [List.length_replicate] at hspan

theorem span_of_head (h : ∀ c ∈ cur.rest.head?, p c = false) : cur.span p = ([], cur) := by
  have htake : cur.rest.takeWhile p = [] := by
    cases hrest : cur.rest with
    | nil => rfl
    | cons c rest => exact List.takeWhile_cons_of_neg (by simp [h c (by simp [hrest])])
  rw [span, htake]
  rfl

theorem break?_eq_none (h : ∀ c ∈ cur.rest.head?, isBreak c = false) : cur.break? = none := by
  unfold break?
  split
  next hrest => simp [hrest, isBreak, isLineEnd] at h
  next c _ _ hrest =>
    have hc := h c (by simp [hrest])
    simp only [isBreak, Bool.or_eq_false_iff] at hc
    simp [hc.1, hc.2]
  next => rfl

theorem break?_eq_some (h : cur.rest = c :: rest) (hc : isBreak c = true) (hr : c ≠ '\r') :
    cur.break? = some (Printer.breakRead c, cur.next) := by
  unfold break?
  split
  next hrest => exact absurd (List.cons.inj (hrest.symm.trans h)).1.symm hr
  next d _ _ hrest =>
    obtain rfl : d = c := (List.cons.inj (hrest.symm.trans h)).1
    unfold Printer.breakRead
    cases hend : isLineEnd d with
    | true => simp
    | false => simp_all [isBreak]
  next hnil => simp_all

end Cursor

theorem documentMark?_eq_none (h : ∀ c ∈ cs.head?, c ≠ '-' ∧ c ≠ '.') :
    documentMark? cs = none := by
  unfold documentMark?
  split <;> simp_all

theorem documentMark?_spaces {n : Nat} (h : 0 < n) (cs : List Char) :
    documentMark? (List.replicate n ' ' ++ cs) = none := by
  obtain ⟨n, rfl⟩ := Nat.exists_eq_add_one.mpr h
  exact documentMark?_eq_none (by simp [List.replicate_succ])

end ModulePins.Yaml
