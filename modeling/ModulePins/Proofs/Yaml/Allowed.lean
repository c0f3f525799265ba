import ModulePins.Proofs.Yaml.Quoted

/-!
# Written text is allowed

Whatever a text holds, only characters that a document may hold are written for it.
-/

namespace ModulePins.Yaml.Printer

variable {indent column run : Nat} {c : Char} {cs : List Char} {rs : List (List Char)}

/-- The characters of a written line that do not come from the text. -/
def isMark (c : Char) : Bool :=
  c == ' ' || c == '\n' || c == '"' || c == '\\' || c == '\x27'

theorem isAllowed_of_isMark (h : isMark c = true) : isAllowed c = true := by
  simp only [isMark, Bool.or_eq_true, beq_iff_eq] at h
  obtain (((rfl | rfl) | rfl) | rfl) | rfl := h <;> decide

theorem isAllowed_of_isSpecial_eq_false (h : isSpecial c = false) : isAllowed c = true := by
  simp only [isSpecial, Bool.not_eq_false', Bool.or_eq_true, Bool.and_eq_true, decide_eq_true_eq] at h
  simp only [isAllowed, Bool.or_eq_true, Bool.and_eq_true, decide_eq_true_eq]
  tauto

theorem isAllowed_of_isEscaped_eq_false (h : isEscaped c = false) : isAllowed c = true := by
  simp only [isEscaped, Bool.or_eq_false_iff, Bool.not_eq_false', Bool.or_eq_true, Bool.and_eq_true,
    decide_eq_true_eq] at h
  simp only [isAllowed, Bool.or_eq_true, Bool.and_eq_true, decide_eq_true_eq]
  tauto

theorem of_mem_newLine (h : c ∈ newLine indent) : isMark c = true := by
  obtain rfl | h := List.mem_cons.mp h
  · rfl
  · rw [List.eq_of_mem_replicate h]
    rfl

/-! ### Escapes -/

theorem exists_digit_of_mem_toDigits (n : Nat) :
    ∀ c ∈ Nat.toDigits 16 n, ∃ d < 16, c = Nat.digitChar d := by
  induction n using Nat.strongRecOn with
  | ind n ih =>
    by_cases h : n < 16
    · rw [Nat.toDigits_of_lt_base h]
      exact fun c hc => ⟨n, h, List.mem_singleton.mp hc⟩
    · rw [Nat.toDigits_of_base_le (by decide) (by omega)]
      intro c hc
      obtain hc | hc := List.mem_append.mp hc
      · exact ih (n / 16) (by omega) c hc
      · exact ⟨n % 16, by omega, List.mem_singleton.mp hc⟩

theorem isAllowed_of_mem_hexDigits {digits n : Nat} (h : c ∈ hexDigits digits n) :
    isAllowed c = true := by
  have hupper : ∀ d < 16, isAllowed (Nat.digitChar d).toUpper = true := by decide
  obtain h | h := List.mem_append.mp h
  · rw [List.eq_of_mem_replicate h]
    decide
  · obtain ⟨e, he, rfl⟩ := List.mem_map.mp h
    obtain ⟨d, hd, rfl⟩ := exists_digit_of_mem_toDigits n e he
    exact hupper d hd

theorem isAllowed_of_shortEscape? {letter : Char} (h : shortEscape? c = some letter) :
    isAllowed letter = true := by
  unfold shortEscape? at h
  split at h <;> cases h <;> decide

theorem isAllowed_of_mem_escape {d : Char} (h : d ∈ escape c) : isAllowed d = true := by
  have hmarks : ∀ e ∈ ['\\', 'x', 'u', 'U'], isAllowed e = true := List.all_eq_true.mp rfl
  unfold escape at h
  split at h
  next letter hletter =>
    simp only [List.mem_cons, List.not_mem_nil, or_false] at h
    obtain rfl | rfl := h
    · decide
    · exact isAllowed_of_shortEscape? hletter
  next =>
    have hdigits : ∀ mark ∈ ['x', 'u', 'U'], ∀ digits n,
        d ∈ '\\' :: mark :: hexDigits digits n → isAllowed d = true := by
      intro mark hmark digits n hd
      simp only [List.mem_cons] at hd
      obtain rfl | rfl | hd := hd
      · exact hmarks _ (by simp)
      · exact hmarks _ (List.mem_cons_of_mem _ hmark)
      · exact isAllowed_of_mem_hexDigits hd
    dsimp only at h
    split at h
    · exact hdigits 'x' (by simp) _ _ h
    split at h
    · exact hdigits 'u' (by simp) _ _ h
    · exact hdigits 'U' (by simp) _ _ h

/-! ### The three styles -/

theorem of_mem_plainFrom (h : c ∈ plainFrom indent column rs) :
    isMark c = true ∨ ∃ r ∈ rs, c ∈ r := by
  induction rs generalizing column with
  | nil => cases h
  | cons r rs ih =>
    have hrest : ∀ column, c ∈ plainFrom indent column rs → isMark c = true ∨ ∃ q ∈ r :: rs, c ∈ q := by
      intro column h
      obtain h | ⟨q, hq, hc⟩ := ih h
      · exact .inl h
      · exact .inr ⟨q, List.mem_cons_of_mem _ hq, hc⟩
    unfold plainFrom at h
    split at h
    · obtain h | h := List.mem_append.mp h
      · exact .inl (of_mem_newLine h)
      · exact hrest _ h
    split at h
    · obtain h | h := List.mem_append.mp h
      · obtain h | h := List.mem_append.mp h
        · exact .inl (of_mem_newLine h)
        · exact .inr ⟨r, List.mem_cons_self, h⟩
      · exact hrest _ h
    · obtain h | h := List.mem_append.mp h
      · exact .inr ⟨r, List.mem_cons_self, h⟩
      · exact hrest _ h

theorem of_mem_singleFrom {first : Bool} (h : c ∈ singleFrom indent column first rs) :
    isMark c = true ∨ ∃ r ∈ rs, c ∈ r := by
  induction rs generalizing column first with
  | nil =>
    rw [List.mem_singleton.mp h]
    exact .inl rfl
  | cons r rs ih =>
    have hrest : ∀ column first, c ∈ singleFrom indent column first rs →
        isMark c = true ∨ ∃ q ∈ r :: rs, c ∈ q := by
      intro column first h
      obtain h | ⟨q, hq, hc⟩ := ih h
      · exact .inl h
      · exact .inr ⟨q, List.mem_cons_of_mem _ hq, hc⟩
    unfold singleFrom at h
    split at h
    · obtain h | h := List.mem_append.mp h
      · obtain h | h := List.mem_append.mp h
        · exact .inr ⟨r, List.mem_cons_self, h⟩
        · rw [List.eq_of_mem_replicate h]
          exact .inl rfl
      · exact hrest _ _ h
    split at h
    · obtain h | h := List.mem_append.mp h
      · exact .inl (of_mem_newLine h)
      · exact hrest _ _ h
    · obtain h | h := List.mem_append.mp h
      · exact .inr ⟨r, List.mem_cons_self, h⟩
      · exact hrest _ _ h

theorem Joined.isEscaped_eq_false {ps : List Piece} (h : Joined ps) (hc : .raw c ∈ ps) :
    isEscaped c = false := by
  induction ps with
  | nil => cases hc
  | cons piece ps ih =>
    obtain rfl | hc := List.mem_cons.mp hc
    · exact h.1.1
    · exact ih h.2 hc

theorem isAllowed_of_mem_written {ps : List Piece} (h : Joined ps)
    (hc : c ∈ ps.flatMap (Piece.written indent)) : isAllowed c = true := by
  obtain ⟨piece, hpiece, hc⟩ := List.mem_flatMap.mp hc
  cases piece with
  | raw d =>
    rw [List.mem_singleton.mp hc]
    exact isAllowed_of_isEscaped_eq_false (h.isEscaped_eq_false hpiece)
  | escaped d => exact isAllowed_of_mem_escape hc
  | fold => exact isAllowed_of_isMark (of_mem_newLine hc)
  | joint =>
    obtain rfl | hc := List.mem_cons.mp hc
    · rfl
    · exact isAllowed_of_isMark (of_mem_newLine hc)
  | mark =>
    rw [List.mem_singleton.mp hc]
    rfl

theorem mem_of_mem_runs (h : ∃ r ∈ runs cs, c ∈ r) : c ∈ cs := by
  have hflatten : (runs cs).flatten = cs := List.flatten_splitBy _ cs
  rw [← hflatten]
  exact List.mem_flatten.mpr h

theorem isAllowed_of_mem_scalar {text : String} (hindent : indent < width)
    (h : c ∈ scalar indent column text) : isAllowed c = true := by
  unfold scalar at h
  cases hstyle : styleOf text with
  | plain =>
    simp only [hstyle, List.mem_cons] at h
    obtain rfl | h := h
    · rfl
    · obtain h | h := of_mem_plainFrom h
      · exact isAllowed_of_isMark h
      · have hfits := (of_styleOf_eq_plain hstyle).2
        simp only [fitsPlain, Bool.and_eq_true, List.all_eq_true, Bool.not_eq_true'] at hfits
        exact isAllowed_of_isSpecial_eq_false (hfits.1.1.1 c (mem_of_mem_runs h)).1
  | single =>
    simp only [hstyle, List.mem_cons] at h
    obtain rfl | rfl | h := h
    · rfl
    · rfl
    · obtain h | h := of_mem_singleFrom h
      · exact isAllowed_of_isMark h
      · exact isAllowed_of_isSpecial_eq_false ((of_styleOf_eq_single hstyle).1 c (mem_of_mem_runs h))
  | double =>
    simp only [hstyle, List.mem_cons] at h
    obtain rfl | rfl | h := h
    · rfl
    · rfl
    · rw [doubleFrom_eq_pieces] at h
      obtain h | h := List.mem_append.mp h
      · exact isAllowed_of_mem_written (joined_pieces hindent _ _ _ _) h
      · rw [List.mem_singleton.mp h]
        rfl

end ModulePins.Yaml.Printer
