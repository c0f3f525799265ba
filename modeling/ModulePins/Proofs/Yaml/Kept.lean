import ModulePins.Proofs.Yaml.Thinned

/-!
# Texts that come back unchanged

Only spaces and the next line U+0085 are ever read back as something else, and only a space ever
makes a line be folded.
-/

namespace ModulePins.Yaml.Printer

variable {indent column run : Nat} {before : Option Char} {cs : List Char}

theorem squeezed_eq_self (hspace : ' ' ∉ cs) : squeezed (runs cs) = cs :=
  have hthinned := thinned_squeezed cs
  (hthinned.eq_of_not_mem fun h => hspace (hthinned.mem h)).symm

theorem breakRead_eq_self {c : Char} (hline : c ≠ '\n' ∧ c.toNat ≠ 0x85)
    (hbreak : isInnerBreak c = true) :
    breakRead c = c := by
  have hreturn : c ≠ '\r' := by
    rintro rfl
    cases hbreak
  simp [breakRead, isLineEnd, hline, hreturn]

theorem runRead_eq_self {kind : Kind} {run rest : List Char} (hrun : IsRun kind run rest)
    (hline : ∀ c ∈ run, c ≠ '\n' ∧ c.toNat ≠ 0x85) : runRead run = run := by
  obtain ⟨c, more, rfl⟩ := List.exists_cons_of_ne_nil hrun.ne_nil
  rw [runRead]
  split
  next hbreak =>
    have hkind : kind = .break := by
      rw [← hrun.kindOf_eq c List.mem_cons_self]
      exact kindOf_eq_break.mpr hbreak
    have hread : ∀ d ∈ c :: more, breakRead d = d := fun d hd =>
      breakRead_eq_self (hline d hd) (kindOf_eq_break.mp ((hrun.kindOf_eq d hd).trans hkind))
    have hmore : more.map breakRead = more.map id :=
      List.map_congr_left fun d hd => hread d (List.mem_cons_of_mem _ hd)
    rw [List.map_id] at hmore
    rw [hread c List.mem_cons_self, hmore, folded, if_pos (by simpa using (hline c List.mem_cons_self).1)]
  next => rfl

theorem flatMap_runRead_eq_self (hline : ∀ c ∈ cs, c ≠ '\n' ∧ c.toNat ≠ 0x85) :
    (runs cs).flatMap runRead = cs := by
  induction cs using runs_induction with
  | nil => rfl
  | append kind run rest hrun ih =>
    rw [hrun.runs_append, List.flatMap_cons, ih fun c hc => hline c (List.mem_append_right _ hc),
      runRead_eq_self hrun fun c hc => hline c (List.mem_append_left _ hc)]

theorem flatMap_read_pieces_eq_self (hspace : ' ' ∉ cs) :
    (pieces indent column run before cs).flatMap Piece.read = cs := by
  induction cs generalizing column run before with
  | nil => rfl
  | cons c rest ih =>
    have hrest : ' ' ∉ rest := fun h => hspace (List.mem_cons_of_mem _ h)
    have hc : c ≠ ' ' := by
      rintro rfl
      exact hspace List.mem_cons_self
    have hquiet : ∀ b, breaksQuietly b c rest = false := fun b => by simp [breaksQuietly, hrest, hc.symm]
    have hhead : rest.head? ≠ some ' ' := fun h => hrest (List.mem_of_mem_head? h)
    unfold pieces
    simp only [hquiet, Bool.false_eq_true, if_false, beq_iff_eq, hc, hhead]
    split
    · split
      · simp [Piece.read, ih hrest]
      · simp [Piece.read, ih hrest]
    · split
      · simp [Piece.read, ih hrest]
      · simp [Piece.read, ih hrest]

/-- A text without spaces and next lines comes back unchanged, wherever it was written. -/
theorem readBack_eq_self {text : String} (hspace : ' ' ∉ text.toList)
    (hline : ∀ c ∈ text.toList, c.toNat ≠ 0x85) : readBack indent column text = text := by
  unfold readBack
  cases hstyle : styleOf text with
  | plain => simp [squeezed_eq_self hspace]
  | single =>
    have hfeed := (of_styleOf_eq_single hstyle).2.2.2
    have hread : (runs text.toList).flatMap runRead = text.toList :=
      flatMap_runRead_eq_self fun c hc => ⟨fun h => hfeed (h ▸ hc), hline c hc⟩
    simp [hread]
  | double => simp [flatMap_read_pieces_eq_self hspace]

end ModulePins.Yaml.Printer
