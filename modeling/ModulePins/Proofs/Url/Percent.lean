import ModulePins.Proofs.Utf8
import ModulePins.Url.Percent

/-!
# Percent encoding is undone

Each byte is written as a triple that reads as this byte, and triples in a row are read as one text
of bytes. So decoding gives back whatever text was encoded, as long as a percent sign does not stand
for itself.
-/

namespace ModulePins.Url

open Nat Text

variable {c : Char}

/-! ### One byte -/

theorem percentByte_eq (b : UInt8) :
    percentByte b =
      ['%', (digitChar (b.toNat / 16)).toUpper, (digitChar (b.toNat % 16)).toUpper] := by
  have hb : b.toNat < 256 := b.toNat_lt
  rw [percentByte, hexDigits]
  by_cases hsmall : b.toNat < 16
  · rw [toDigits_of_lt_base hsmall, Nat.div_eq_of_lt hsmall, Nat.mod_eq_of_lt hsmall]
    rfl
  · rw [toDigits_of_base_le (by decide) (by omega), toDigits_of_lt_base (by omega)]
    rfl

theorem upperDigit {d : Nat} (h : d < 16) :
    isHexDigit (digitChar d).toUpper = true ∧ hexDigitValue (digitChar d).toUpper = d := by
  revert d
  decide

theorem leadingTriples_percentByte (b : UInt8) (rest : List Char) :
    leadingTriples (percentByte b ++ rest) = b :: leadingTriples rest := by
  have hb : b.toNat < 256 := b.toNat_lt
  obtain ⟨hhigh, hhigh'⟩ := upperDigit (d := b.toNat / 16) (by omega)
  obtain ⟨hlow, hlow'⟩ := upperDigit (d := b.toNat % 16) (by omega)
  have hvalue : (b.toNat / 16 * 16 + b.toNat % 16).toUInt8 = b := by
    rw [Nat.div_add_mod', Nat.toUInt8_eq, UInt8.ofNat_toNat]
  simp [percentByte_eq, leadingTriples, hhigh, hlow, hhigh', hlow', hvalue]

theorem leadingTriples_percentChar (c : Char) (rest : List Char) :
    leadingTriples (percentChar c ++ rest) = Utf8.encodeChar c ++ leadingTriples rest := by
  rw [percentChar]
  induction Utf8.encodeChar c with
  | nil => rfl
  | cons b bytes ih =>
    rw [List.flatMap_cons, List.append_assoc, leadingTriples_percentByte, ih, List.cons_append]

theorem length_percentChar (c : Char) :
    (percentChar c).length = 3 * (Utf8.encodeChar c).length := by
  rw [percentChar]
  induction Utf8.encodeChar c with
  | nil => rfl
  | cons b bytes ih =>
    rw [List.flatMap_cons, List.length_append, ih, percentByte_eq, List.length_cons]
    simp only [List.length_cons, List.length_nil]
    omega

/-! ### A whole text -/

theorem percentDecodeFrom_skip (skip : Nat) (cs : List Char) :
    percentDecodeFrom skip cs = percentDecodeFrom 0 (cs.drop skip) := by
  induction cs generalizing skip with
  | nil => simp [percentDecodeFrom]
  | cons c cs ih =>
    cases skip with
    | zero => rfl
    | succ skip => rw [percentDecodeFrom, ih, List.drop_succ_cons]

/-- The triples at the head of a text are decoded together, and then what comes after them. -/
theorem percentDecode_eq (cs : List Char) :
    percentDecode cs = Utf8.decodeLossy (leadingTriples cs) ++
      percentDecode (cs.drop (3 * (leadingTriples cs).length)) := by
  cases cs with
  | nil => rfl
  | cons c rest =>
    cases hbytes : leadingTriples (c :: rest) with
    | nil => rfl
    | cons b bytes =>
      have hdrop : 3 * (b :: bytes).length = 3 * (b :: bytes).length - 1 + 1 := by
        simp only [List.length_cons]
        omega
      rw [hdrop, List.drop_succ_cons, percentDecode, percentDecodeFrom, hbytes]
      dsimp only
      rw [percentDecodeFrom_skip, percentDecode]

theorem percentDecode_percentChar (c : Char) (rest : List Char) :
    percentDecode (percentChar c ++ rest) = c :: percentDecode rest := by
  have hlength : 3 * (leadingTriples (percentChar c ++ rest)).length =
      (percentChar c).length + 3 * (leadingTriples rest).length := by
    rw [leadingTriples_percentChar, List.length_append, length_percentChar, Nat.mul_add]
  rw [percentDecode_eq, hlength, List.drop_length_add_append, leadingTriples_percentChar,
    Utf8.decodeLossy_encodeChar, List.cons_append, ← percentDecode_eq]

theorem percentDecode_cons (h : c ≠ '%') (rest : List Char) :
    percentDecode (c :: rest) = c :: percentDecode rest := by
  have hnone : leadingTriples (c :: rest) = [] := by
    unfold leadingTriples
    split
    · rename_i heq
      exact absurd (List.cons.inj heq).1 h
    · rfl
  rw [percentDecode, percentDecodeFrom, hnone]
  rfl

/-- Whatever was encoded is decoded, unless percent signs were left as they are. -/
theorem percentDecode_percentEncode {safe : Char → Bool} (h : safe '%' = false) (cs : List Char) :
    percentDecode (percentEncode safe cs) = cs := by
  induction cs with
  | nil => rfl
  | cons c cs ih =>
    rw [percentEncode, List.flatMap_cons, ← percentEncode]
    split
    · rename_i hsafe
      have hne : c ≠ '%' := by
        rintro rfl
        simp [h] at hsafe
      rw [List.singleton_append, percentDecode_cons hne, ih]
    · rw [percentDecode_percentChar, ih]

end ModulePins.Url
