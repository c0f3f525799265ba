import ModulePins.Json.Printer
import ModulePins.Json.Reader

/-!
# Quoted strings are read back

Whatever characters a string has, it is written in printable ASCII alone and reads as itself.
-/

namespace ModulePins.Text

open Nat

theorem hexDigits_four {n : Nat} (h : n < 0x10000) :
    hexDigits 4 n =
      [digitChar (n / 0x1000), digitChar (n / 0x100 % 16), digitChar (n / 0x10 % 16),
        digitChar (n % 16)] := by
  unfold hexDigits
  by_cases h1 : n < 0x10
  · rw [toDigits_of_lt_base h1]
    have h2 : n / 0x10 = 0 := by omega
    have h3 : n / 0x100 = 0 := by omega
    have h4 : n / 0x1000 = 0 := by omega
    simp [h2, h3, h4, Nat.mod_eq_of_lt h1]
  rw [toDigits_of_base_le (by decide) (by omega)]
  by_cases h2 : n < 0x100
  · rw [toDigits_of_lt_base (by omega)]
    have h3 : n / 0x100 = 0 := by omega
    have h4 : n / 0x1000 = 0 := by omega
    have h5 : n / 0x10 % 16 = n / 0x10 := by omega
    simp [h3, h4, h5]
  rw [toDigits_of_base_le (by decide) (by omega)]
  by_cases h3 : n < 0x1000
  · rw [toDigits_of_lt_base (by omega)]
    have h4 : n / 0x1000 = 0 := by omega
    have h5 : n / 0x10 / 0x10 = n / 0x100 % 16 := by omega
    simp [h4, h5]
  rw [toDigits_of_base_le (by decide) (by omega), toDigits_of_lt_base (by omega)]
  have h5 : n / 0x10 / 0x10 = n / 0x100 := by omega
  have h6 : n / 0x100 / 0x10 = n / 0x1000 := by omega
  simp [h5, h6]

def IsPlain (c : Char) : Prop :=
  0x20 ≤ c.toNat ∧ c.toNat ≤ 0x7E

instance (c : Char) : Decidable (IsPlain c) :=
  inferInstanceAs (Decidable (_ ∧ _))

theorem isPlain_of_all {cs : List Char} (h : cs.all (fun c => decide (IsPlain c)) = true) :
    ∀ c ∈ cs, IsPlain c := by
  simpa using h

theorem isPlain_digitChar {d : Nat} (h : d < 16) : IsPlain (digitChar d) := by
  revert d
  decide

theorem isPlain_hexDigits {n : Nat} (h : n < 0x10000) : ∀ c ∈ hexDigits 4 n, IsPlain c := by
  rw [hexDigits_four h]
  intro c hc
  simp only [List.mem_cons, List.not_mem_nil, or_false] at hc
  rcases hc with rfl | rfl | rfl | rfl
  all_goals exact isPlain_digitChar (by omega)

end ModulePins.Text

namespace ModulePins.Json

open Text

theorem hexValue?_digitChar {d : Nat} (h : d < 16) : hexValue? (Nat.digitChar d) = some d := by
  revert d
  decide

theorem codeUnit?_hexDigits {n : Nat} (h : n < 0x10000) :
    codeUnit? (Nat.digitChar (n / 0x1000)) (Nat.digitChar (n / 0x100 % 16))
      (Nat.digitChar (n / 0x10 % 16)) (Nat.digitChar (n % 16)) = some n := by
  have hvalue : ((n / 0x1000 * 16 + n / 0x100 % 16) * 16 + n / 0x10 % 16) * 16 + n % 16 = n := by
    omega
  rw [codeUnit?, hexValue?_digitChar (by omega), hexValue?_digitChar (by omega),
    hexValue?_digitChar (by omega), hexValue?_digitChar (by omega)]
  simp [hvalue]

theorem toNat_range (c : Char) :
    c.toNat < 0xD800 ∨ 0xDFFF < c.toNat ∧ c.toNat < 0x110000 :=
  c.valid

theorem not_isHalf (c : Char) : isHighHalf c.toNat = false ∧ isLowHalf c.toNat = false := by
  have hrange := toNat_range c
  constructor
  · simp only [isHighHalf, Bool.and_eq_false_iff, decide_eq_false_iff_not]
    omega
  · simp only [isLowHalf, Bool.and_eq_false_iff, decide_eq_false_iff_not]
    omega

theorem readString_skip (opened : Nat) (read : List Char) (skip : Nat) (cs : List Char) :
    readString opened read skip cs = readString opened read 0 (cs.drop skip) := by
  induction cs generalizing skip with
  | nil => simp [readString]
  | cons c cs ih =>
    cases skip with
    | zero => rfl
    | succ skip =>
      rw [readString, List.drop_succ_cons]
      exact ih skip

/-- One code unit that stands for itself. -/
theorem readString_unitEscape (opened : Nat) (read : List Char) (c : Char)
    (h : c.toNat < 0x10000) (next : Char) (rest : List Char) :
    readString opened read 0 (unitEscape c.toNat ++ next :: rest) =
      readString opened (c :: read) 0 (next :: rest) := by
  obtain ⟨hhigh, hlow⟩ := not_isHalf c
  have hunit : readUnit (hexDigits 4 c.toNat ++ next :: rest) = .ok (c, 4) := by
    rw [hexDigits_four h]
    simp only [List.cons_append, List.nil_append, readUnit, codeUnit?_hexDigits h, hhigh,
      ofUnit, hlow, Bool.or_self, Bool.false_eq_true, if_false, Char.ofNat_toNat]
  rw [unitEscape, List.cons_append, List.cons_append, readString]
  simp only [hunit, bind, Except.bind]
  simp [hexDigits_four h, readString_skip _ _ 5]

/-- Two code units that stand for one character. -/
theorem readString_pair (opened : Nat) (read : List Char) {high low : Nat}
    (hhigh : isHighHalf high = true) (hlow : isLowHalf low = true) (next : Char)
    (rest : List Char) :
    readString opened read 0 (unitEscape high ++ unitEscape low ++ next :: rest) =
      readString opened (ofPair high low :: read) 0 (next :: rest) := by
  have hhighMax : high < 0x10000 := by
    simp only [isHighHalf, Bool.and_eq_true, decide_eq_true_eq] at hhigh
    omega
  have hlowMax : low < 0x10000 := by
    simp only [isLowHalf, Bool.and_eq_true, decide_eq_true_eq] at hlow
    omega
  have hunit : readUnit (hexDigits 4 high ++ unitEscape low ++ next :: rest) =
      .ok (ofPair high low, 10) := by
    rw [unitEscape, hexDigits_four hhighMax, hexDigits_four hlowMax]
    simp only [List.cons_append, List.nil_append, readUnit, codeUnit?_hexDigits hhighMax,
      codeUnit?_hexDigits hlowMax, hhigh, hlow, if_true]
  rw [List.append_assoc, unitEscape, List.cons_append, List.cons_append, readString]
  simp only [← List.append_assoc, hunit, bind, Except.bind]
  simp [hexDigits_four hhighMax, hexDigits_four hlowMax, unitEscape, readString_skip _ _ 11]

theorem ofPair_halves (c : Char) (h : 0x10000 ≤ c.toNat) :
    isHighHalf (0xD800 + (c.toNat - 0x10000) / 0x400) = true ∧
      isLowHalf (0xDC00 + (c.toNat - 0x10000) % 0x400) = true ∧
      ofPair (0xD800 + (c.toNat - 0x10000) / 0x400) (0xDC00 + (c.toNat - 0x10000) % 0x400) = c := by
  have hrange := toNat_range c
  refine ⟨?_, ?_, ?_⟩
  · simp only [isHighHalf, Bool.and_eq_true, decide_eq_true_eq]
    omega
  · simp only [isLowHalf, Bool.and_eq_true, decide_eq_true_eq]
    omega
  · have hvalue : 0x10000 + (0xD800 + (c.toNat - 0x10000) / 0x400 - 0xD800) * 0x400 +
        (0xDC00 + (c.toNat - 0x10000) % 0x400 - 0xDC00) = c.toNat := by omega
    rw [ofPair, hvalue, Char.ofNat_toNat]

inductive Escaped (c : Char) : List Char → Prop
  | short {letter : Char} (hletter : shortEscape? letter = some c) (hplain : IsPlain letter) :
      Escaped c ['\\', letter]
  | plain (hplain : IsPlain c) (hquote : c ≠ '"') (hslash : c ≠ '\\') : Escaped c [c]
  | unit (h : c.toNat < 0x10000) : Escaped c (unitEscape c.toNat)
  | pair (h : 0x10000 ≤ c.toNat) :
      Escaped c (unitEscape (0xD800 + (c.toNat - 0x10000) / 0x400) ++
        unitEscape (0xDC00 + (c.toNat - 0x10000) % 0x400))

theorem escaped_escape (c : Char) : Escaped c (escape c) := by
  have hof : ∀ n, (c.toNat == n) = true → c = Char.ofNat n := by
    intro n hn
    rw [← beq_iff_eq.mp hn, Char.ofNat_toNat]
  unfold escape
  dsimp only
  split
  · rename_i h
    rcases Bool.or_eq_true_iff.mp h with h | h
    · cases beq_iff_eq.mp h
      exact .short (by decide) (by decide)
    · cases beq_iff_eq.mp h
      exact .short (by decide) (by decide)
  rename_i hmark
  split
  · rename_i h
    cases beq_iff_eq.mp h
    exact .short (by decide) (by decide)
  split
  · rename_i h
    cases beq_iff_eq.mp h
    exact .short (by decide) (by decide)
  split
  · rename_i h
    cases beq_iff_eq.mp h
    exact .short (by decide) (by decide)
  split
  · rename_i h
    cases hof _ h
    exact .short (by decide) (by decide)
  split
  · rename_i h
    cases hof _ h
    exact .short (by decide) (by decide)
  split
  · rename_i h
    simp only [Bool.and_eq_true, decide_eq_true_eq] at h
    refine .plain h ?_ ?_
    · rintro rfl
      simp at hmark
    · rintro rfl
      simp at hmark
  split
  · rename_i h
    exact .unit h
  · rename_i h
    exact .pair (Nat.le_of_not_lt h)

theorem isPlain_unitEscape {n : Nat} (h : n < 0x10000) : ∀ c ∈ unitEscape n, IsPlain c := by
  intro c hc
  rcases List.mem_cons.mp hc with rfl | hc
  · decide
  rcases List.mem_cons.mp hc with rfl | hc
  · decide
  · exact isPlain_hexDigits h c hc

theorem isPlain_escape (c : Char) : ∀ d ∈ escape c, IsPlain d := by
  have hrange := toNat_range c
  intro d hd
  have hescaped := escaped_escape c
  generalize escape c = written at hd hescaped
  cases hescaped with
  | short _ hplain =>
    simp only [List.mem_cons, List.not_mem_nil, or_false] at hd
    rcases hd with rfl | rfl
    · decide
    · exact hplain
  | plain hplain _ _ => exact List.mem_singleton.mp hd ▸ hplain
  | unit h => exact isPlain_unitEscape h d hd
  | pair h =>
    rcases List.mem_append.mp hd with hd | hd
    · exact isPlain_unitEscape (by omega) d hd
    · exact isPlain_unitEscape (by omega) d hd

theorem readString_escape (opened : Nat) (read : List Char) (c next : Char) (rest : List Char) :
    readString opened read 0 (escape c ++ next :: rest) =
      readString opened (c :: read) 0 (next :: rest) := by
  have hescaped := escaped_escape c
  generalize escape c = written at hescaped
  cases hescaped with
  | @short letter hletter _ =>
    -- `shortEscape?` has no entry for the letter that introduces a code unit.
    have hunit : letter ≠ 'u' := by
      rintro rfl
      cases hletter
    simp [readString, hletter]
  | plain hplain hquote hslash =>
    have hcontrol : ¬c.toNat < 0x20 := Nat.not_lt.mpr hplain.1
    simp [readString, hquote, hslash, hcontrol]
  | unit h => exact readString_unitEscape opened read c h next rest
  | pair h =>
    obtain ⟨hhigh, hlow, hpair⟩ := ofPair_halves c h
    rw [readString_pair opened read hhigh hlow, hpair]

theorem readString_flatMap_escape (opened : Nat) (read cs rest : List Char) :
    readString opened read 0 (cs.flatMap escape ++ '"' :: rest) =
      .ok (read.reverse ++ cs, rest) := by
  induction cs generalizing read with
  | nil => simp [readString]
  | cons c cs ih =>
    have hnext : ∃ next more, cs.flatMap escape ++ '"' :: rest = next :: more := by
      cases cs.flatMap escape with
      | nil => exact ⟨_, _, rfl⟩
      | cons next more => exact ⟨_, _, rfl⟩
    obtain ⟨next, more, hmore⟩ := hnext
    rw [List.flatMap_cons, List.append_assoc, hmore, readString_escape, ← hmore, ih,
      List.reverse_cons, List.append_assoc, List.singleton_append]

/-- A quoted string reads as itself, whatever follows it. -/
theorem readValue_quoted (depth : Nat) (s : String) (rest : List Char) :
    readValue depth ((quoted s).toList ++ rest) = .ok (.text s, rest) := by
  have hshape : (quoted s).toList ++ rest = '"' :: (s.toList.flatMap escape ++ '"' :: rest) := by
    simp [quoted]
  rw [hshape, readValue.eq_def]
  simp only [readString_flatMap_escape, bind, Except.bind, List.reverse_nil, List.nil_append,
    String.ofList_toList, pure, Except.pure]

theorem isPlain_quoted (s : String) : ∀ c ∈ (quoted s).toList, IsPlain c := by
  rw [quoted, String.toList_ofList]
  intro c hc
  rcases List.mem_append.mp hc with hc | hc
  · rcases List.mem_cons.mp hc with rfl | hc
    · decide
    · obtain ⟨d, _, hd⟩ := List.mem_flatMap.mp hc
      exact isPlain_escape d c hd
  · rw [List.mem_singleton.mp hc]
    decide

end ModulePins.Json
