import Mathlib.Data.List.Basic
import ModulePins.Text.Utf8

/-!
# UTF-8 is read back

Decoding gives the one text whose encoding the bytes are, and fails if there is none. A character is
followed through its first byte and the bytes that continue it.
-/

namespace ModulePins.Text.Utf8

variable {bytes rest tail : List UInt8} {lead : UInt8} {c : Char} {n width : Nat}
  {read cs : List Char}

theorem toNat_toUInt8 (h : n < 0x100) : n.toUInt8.toNat = n := by
  simp
  omega

theorem toNat_ofNat (h : n.isValidChar) : (Char.ofNat n).toNat = n := by
  rw [Char.ofNat, dif_pos h]
  rfl

/-- Bytes that spell a number, by how many bytes it takes. -/
inductive Spells (n : Nat) : List UInt8 → Prop where
  | one {a : UInt8} (hn : n < 0x80) (ha : a.toNat = n) : Spells n [a]
  | two {a b : UInt8} (hn : 0x80 ≤ n ∧ n < 0x800) (ha : a.toNat = 0xC0 + n / 0x40)
      (hb : b.toNat = 0x80 + n % 0x40) : Spells n [a, b]
  | three {a b c : UInt8} (hn : 0x800 ≤ n ∧ n < 0x10000) (ha : a.toNat = 0xE0 + n / 0x1000)
      (hb : b.toNat = 0x80 + n / 0x40 % 0x40) (hc : c.toNat = 0x80 + n % 0x40) : Spells n [a, b, c]
  | four {a b c d : UInt8} (hn : 0x10000 ≤ n ∧ n < 0x110000) (ha : a.toNat = 0xF0 + n / 0x40000)
      (hb : b.toNat = 0x80 + n / 0x1000 % 0x40) (hc : c.toNat = 0x80 + n / 0x40 % 0x40)
      (hd : d.toNat = 0x80 + n % 0x40) : Spells n [a, b, c, d]

theorem spells_encodeChar (c : Char) : Spells c.toNat (encodeChar c) := by
  have hlast : c.toNat < 0x110000 := by
    have hrange : c.toNat < 0xD800 ∨ 0xDFFF < c.toNat ∧ c.toNat < 0x110000 := c.valid
    omega
  unfold encodeChar
  dsimp only
  split
  · exact .one ‹_› (toNat_toUInt8 (by omega))
  · split
    · exact .two (by omega) (toNat_toUInt8 (by omega)) (toNat_toUInt8 (by omega))
    · split
      · exact .three (by omega) (toNat_toUInt8 (by omega)) (toNat_toUInt8 (by omega))
          (toNat_toUInt8 (by omega))
      · exact .four (by omega) (toNat_toUInt8 (by omega)) (toNat_toUInt8 (by omega))
          (toNat_toUInt8 (by omega)) (toNat_toUInt8 (by omega))

theorem Spells.exists_cons (h : Spells n bytes) : ∃ lead tail, bytes = lead :: tail := by
  cases h <;> exact ⟨_, _, rfl⟩

theorem Spells.unique {xs ys : List UInt8} (hx : Spells n xs) (hy : Spells n ys) : xs = ys := by
  cases hx <;> cases hy <;> try omega
  all_goals simp only [List.cons.injEq, and_true, ← UInt8.toNat_inj]; omega

theorem encodeChar_of_spells (h : Spells c.toNat bytes) : encodeChar c = bytes :=
  (spells_encodeChar c).unique h

/-! ## One character -/

/-- A first byte tells how many bytes follow and bounds the first of them. -/
theorem following?_eq_some_iff {count : Nat} {low high : UInt8} :
    following? lead = some (count, low, high) ↔
      (0xC2 ≤ lead.toNat ∧ lead.toNat ≤ 0xDF ∧ count = 1 ∧ low = 0x80 ∧ high = 0xBF) ∨
      (0xE0 ≤ lead.toNat ∧ lead.toNat ≤ 0xEF ∧ count = 2 ∧
        low = (if lead.toNat = 0xE0 then 0xA0 else 0x80) ∧
        high = (if lead.toNat = 0xED then 0x9F else 0xBF)) ∨
      (0xF0 ≤ lead.toNat ∧ lead.toNat ≤ 0xF4 ∧ count = 3 ∧
        low = (if lead.toNat = 0xF0 then 0x90 else 0x80) ∧
        high = (if lead.toNat = 0xF4 then 0x8F else 0xBF)) := by
  simp only [following?, Bool.and_eq_true, decide_eq_true_eq, UInt8.le_iff_toNat_le, beq_iff_eq,
    ← UInt8.toNat_inj (a := lead), UInt8.reduceToNat]
  grind

theorem continuation_succ_eq_ok_iff {value good count final : Nat} {low high : UInt8} :
    continuation value good low high (count + 1) bytes = .ok final ↔
      ∃ b rest, bytes = b :: rest ∧ low.toNat ≤ b.toNat ∧ b.toNat ≤ high.toNat ∧
        continuation (value * 0x40 + b.toNat % 0x40) (good + 1) 0x80 0xBF count rest = .ok final := by
  cases bytes with
  | nil => simp [continuation]
  | cons b rest =>
    by_cases hrange : low.toNat ≤ b.toNat ∧ b.toNat ≤ high.toNat
    · simp [continuation, UInt8.le_iff_toNat_le, hrange]
    · simp [continuation, UInt8.le_iff_toNat_le, hrange, ← and_assoc]

theorem continuation_zero {value good : Nat} {low high : UInt8} :
    continuation value good low high 0 bytes = .ok value := by
  rw [continuation]

theorem step_eq_ok_iff_of_ascii (h : lead.toNat < 0x80) :
    step lead rest = .ok (c, width) ↔ width = 1 ∧ c.toNat = lead.toNat := by
  have hlead : lead < 0x80 := by
    rw [UInt8.lt_iff_toNat_lt]
    exact h
  have hvalid : lead.toNat.isValidChar := .inl (by omega)
  rw [step, if_pos hlead, Except.ok.injEq, Prod.mk.injEq]
  constructor
  · rintro ⟨rfl, rfl⟩
    exact ⟨rfl, toNat_ofNat hvalid⟩
  · rintro ⟨rfl, hc⟩
    exact ⟨by rw [← hc, Char.ofNat_toNat], rfl⟩

theorem step_eq_ok_iff_of_long (h : 0x80 ≤ lead.toNat) :
    step lead rest = .ok (c, width) ↔ ∃ count low high value,
      following? lead = some (count, low, high) ∧
      continuation (leadValue lead count) 1 low high count rest = .ok value ∧
      Char.ofNat value = c ∧ width = count + 1 := by
  have hlead : ¬lead < 0x80 := by
    rw [UInt8.lt_iff_toNat_lt]
    exact Nat.not_lt.mpr h
  rw [step, if_neg hlead]
  cases hfollow : following? lead with
  | none => simp
  | some bounds =>
    obtain ⟨count, low, high⟩ := bounds
    dsimp only
    cases hcont : continuation (leadValue lead count) 1 low high count rest with
    | error fault => simp [hcont]
    | ok value =>
      simp only [Except.ok.injEq, Prod.mk.injEq, Option.some.injEq]
      constructor
      · rintro ⟨rfl, rfl⟩
        exact ⟨count, low, high, value, ⟨rfl, rfl, rfl⟩, hcont, rfl, rfl⟩
      · rintro ⟨_, _, _, _, ⟨rfl, rfl, rfl⟩, hagain, rfl, rfl⟩
        rw [hcont, Except.ok.injEq] at hagain
        exact ⟨by rw [hagain], rfl⟩

theorem spells_of_step (h : step lead rest = .ok (c, width)) :
    ∃ tail after, rest = tail ++ after ∧ width = tail.length + 1 ∧
      Spells c.toNat (lead :: tail) := by
  by_cases hascii : lead.toNat < 0x80
  · obtain ⟨rfl, hc⟩ := (step_eq_ok_iff_of_ascii hascii).mp h
    exact ⟨[], rest, rfl, rfl, .one (by omega) hc.symm⟩
  · obtain ⟨count, low, high, value, hfollow, hcont, rfl, rfl⟩ :=
      (step_eq_ok_iff_of_long (Nat.not_lt.mp hascii)).mp h
    rcases following?_eq_some_iff.mp hfollow with ⟨hlow, hhigh, rfl, rfl, rfl⟩ |
      ⟨hlow, hhigh, rfl, rfl, rfl⟩ | ⟨hlow, hhigh, rfl, rfl, rfl⟩
    · obtain ⟨b, after, rfl, hb, hb', hcont⟩ := continuation_succ_eq_ok_iff.mp hcont
      rw [continuation_zero, Except.ok.injEq] at hcont
      simp only [leadValue, UInt8.reduceToNat, Nat.reduceSub, Nat.pow_eq, Nat.reducePow] at hcont hb hb'
      refine ⟨[b], after, rfl, rfl, ?_⟩
      rw [toNat_ofNat (.inl (by omega))]
      exact .two (by omega) (by omega) (by omega)
    · obtain ⟨b, tail, rfl, hb, hb', hcont⟩ := continuation_succ_eq_ok_iff.mp hcont
      obtain ⟨d, after, rfl, hd, hd', hcont⟩ := continuation_succ_eq_ok_iff.mp hcont
      rw [continuation_zero, Except.ok.injEq] at hcont
      simp only [apply_ite UInt8.toNat, leadValue, UInt8.reduceToNat, Nat.reduceSub, Nat.pow_eq,
        Nat.reducePow] at hcont hb hb' hd hd'
      have hleast : 0x80 ≤ b.toNat ∧ (lead.toNat = 0xE0 → 0xA0 ≤ b.toNat) := by
        split at hb <;> omega
      have hmost : b.toNat ≤ 0xBF ∧ (lead.toNat = 0xED → b.toNat ≤ 0x9F) := by
        split at hb' <;> omega
      have hvalid : value.isValidChar := by
        unfold Nat.isValidChar
        omega
      refine ⟨[b, d], after, rfl, rfl, ?_⟩
      rw [toNat_ofNat hvalid]
      exact .three (by omega) (by omega) (by omega) (by omega)
    · obtain ⟨b, tail, rfl, hb, hb', hcont⟩ := continuation_succ_eq_ok_iff.mp hcont
      obtain ⟨d, tail, rfl, hd, hd', hcont⟩ := continuation_succ_eq_ok_iff.mp hcont
      obtain ⟨e, after, rfl, he, he', hcont⟩ := continuation_succ_eq_ok_iff.mp hcont
      rw [continuation_zero, Except.ok.injEq] at hcont
      simp only [apply_ite UInt8.toNat, leadValue, UInt8.reduceToNat, Nat.reduceSub, Nat.pow_eq,
        Nat.reducePow] at hcont hb hb' hd hd' he he'
      have hleast : 0x80 ≤ b.toNat ∧ (lead.toNat = 0xF0 → 0x90 ≤ b.toNat) := by
        split at hb <;> omega
      have hmost : b.toNat ≤ 0xBF ∧ (lead.toNat = 0xF4 → b.toNat ≤ 0x8F) := by
        split at hb' <;> omega
      have hvalid : value.isValidChar := by
        unfold Nat.isValidChar
        omega
      refine ⟨[b, d, e], after, rfl, rfl, ?_⟩
      rw [toNat_ofNat hvalid]
      exact .four (by omega) (by omega) (by omega) (by omega) (by omega)

theorem step_of_spells (h : Spells c.toNat (lead :: tail)) (after : List UInt8) :
    step lead (tail ++ after) = .ok (c, tail.length + 1) := by
  have hrange : c.toNat < 0xD800 ∨ 0xDFFF < c.toNat ∧ c.toNat < 0x110000 := c.valid
  cases h with
  | one hn ha => exact (step_eq_ok_iff_of_ascii (by omega)).mpr ⟨rfl, ha.symm⟩
  | @two a b hn ha hb =>
    refine (step_eq_ok_iff_of_long (by omega)).mpr ⟨1, _, _, c.toNat, following?_eq_some_iff.mpr
      (.inl ⟨by omega, by omega, rfl, rfl, rfl⟩), ?_, Char.ofNat_toNat c, rfl⟩
    have hvalue : c.toNat = leadValue lead 1 * 0x40 + b.toNat % 0x40 := by
      simp only [leadValue, Nat.reduceSub, Nat.pow_eq, Nat.reducePow]
      omega
    rw [hvalue]
    refine continuation_succ_eq_ok_iff.mpr ⟨b, after, rfl, ?_, ?_, continuation_zero⟩
    · simp only [UInt8.reduceToNat]
      omega
    · simp only [UInt8.reduceToNat]
      omega
  | @three a b d hn ha hb hd =>
    refine (step_eq_ok_iff_of_long (by omega)).mpr ⟨2, _, _, c.toNat, following?_eq_some_iff.mpr
      (.inr (.inl ⟨by omega, by omega, rfl, rfl, rfl⟩)), ?_, Char.ofNat_toNat c, rfl⟩
    have hvalue : c.toNat =
        (leadValue lead 2 * 0x40 + b.toNat % 0x40) * 0x40 + d.toNat % 0x40 := by
      simp only [leadValue, Nat.reduceSub, Nat.pow_eq, Nat.reducePow]
      omega
    rw [hvalue]
    refine continuation_succ_eq_ok_iff.mpr ⟨b, d :: after, rfl, ?_, ?_,
      continuation_succ_eq_ok_iff.mpr ⟨d, after, rfl, ?_, ?_, continuation_zero⟩⟩
    · split <;> simp only [UInt8.reduceToNat] <;> omega
    · split <;> simp only [UInt8.reduceToNat] <;> omega
    · simp only [UInt8.reduceToNat]
      omega
    · simp only [UInt8.reduceToNat]
      omega
  | @four a b d e hn ha hb hd he =>
    refine (step_eq_ok_iff_of_long (by omega)).mpr ⟨3, _, _, c.toNat, following?_eq_some_iff.mpr
      (.inr (.inr ⟨by omega, by omega, rfl, rfl, rfl⟩)), ?_, Char.ofNat_toNat c, rfl⟩
    have hvalue : c.toNat = ((leadValue lead 3 * 0x40 + b.toNat % 0x40) * 0x40 +
        d.toNat % 0x40) * 0x40 + e.toNat % 0x40 := by
      simp only [leadValue, Nat.reduceSub, Nat.pow_eq, Nat.reducePow]
      omega
    rw [hvalue]
    refine continuation_succ_eq_ok_iff.mpr ⟨b, d :: e :: after, rfl, ?_, ?_,
      continuation_succ_eq_ok_iff.mpr ⟨d, e :: after, rfl, ?_, ?_,
        continuation_succ_eq_ok_iff.mpr ⟨e, after, rfl, ?_, ?_, continuation_zero⟩⟩⟩
    · split <;> simp only [UInt8.reduceToNat] <;> omega
    · split <;> simp only [UInt8.reduceToNat] <;> omega
    all_goals
      simp only [UInt8.reduceToNat]
      omega

/-- A first byte with what follows gives a character if they spell it. -/
theorem step_eq_ok_iff :
    step lead rest = .ok (c, width) ↔ ∃ tail after, rest = tail ++ after ∧
      width = tail.length + 1 ∧ encodeChar c = lead :: tail := by
  constructor
  · intro h
    obtain ⟨tail, after, hrest, hwidth, hspells⟩ := spells_of_step h
    exact ⟨tail, after, hrest, hwidth, encodeChar_of_spells hspells⟩
  · rintro ⟨tail, after, rfl, rfl, hencode⟩
    exact step_of_spells (hencode ▸ spells_encodeChar c) after

/-! ## A whole text -/

theorem decodeFrom_skip (read : List Char) (position : Nat) (tail after : List UInt8) :
    decodeFrom read position tail.length (tail ++ after) =
      decodeFrom read (position + tail.length) 0 after := by
  induction tail generalizing position with
  | nil => rfl
  | cons b tail ih =>
    rw [List.length_cons, List.cons_append, decodeFrom, ih, Nat.add_right_comm, Nat.add_assoc]

theorem step_encodeChar (c : Char) (after : List UInt8) :
    ∃ lead tail, encodeChar c = lead :: tail ∧
      step lead (tail ++ after) = .ok (c, tail.length + 1) := by
  obtain ⟨lead, tail, hencode⟩ := (spells_encodeChar c).exists_cons
  exact ⟨lead, tail, hencode, step_eq_ok_iff.mpr ⟨tail, after, rfl, rfl, hencode⟩⟩

theorem decodeFrom_encodeChar (read : List Char) (position : Nat) (c : Char) (after : List UInt8) :
    ∃ next, decodeFrom read position 0 (encodeChar c ++ after) =
      decodeFrom (c :: read) next 0 after := by
  obtain ⟨lead, tail, hencode, hstep⟩ := step_encodeChar c after
  refine ⟨position + 1 + tail.length, ?_⟩
  rw [hencode, List.cons_append, decodeFrom]
  simp only [hstep, Nat.add_sub_cancel, decodeFrom_skip]

theorem decodeFrom_encode (cs read : List Char) (position : Nat) :
    decodeFrom read position 0 (encode cs) = .ok (read.reverse ++ cs) := by
  induction cs generalizing read position with
  | nil => simp [encode, decodeFrom]
  | cons c cs ih =>
    obtain ⟨next, hnext⟩ := decodeFrom_encodeChar read position c (encode cs)
    rw [encode, List.flatMap_cons]
    exact (hnext.trans (ih (c :: read) next)).trans (by simp)

theorem decode_encode (cs : List Char) : decode (encode cs) = .ok cs :=
  decodeFrom_encode cs [] 0

theorem encode_of_decodeFrom (position : Nat) (h : decodeFrom read position 0 bytes = .ok cs) :
    ∃ more, cs = read.reverse ++ more ∧ encode more = bytes := by
  -- A character takes one byte or more, so the induction is on how many bytes are left.
  induction hlength : bytes.length using Nat.strongRecOn generalizing bytes read position with
  | _ length ih =>
    cases bytes with
    | nil =>
      rw [decodeFrom, Except.ok.injEq] at h
      exact ⟨[], by simp [h], rfl⟩
    | cons lead rest =>
      rw [decodeFrom] at h
      cases hstep : step lead rest with
      | error fault => simp [hstep] at h
      | ok character =>
        obtain ⟨c, width⟩ := character
        obtain ⟨tail, after, rfl, rfl, hencode⟩ := step_eq_ok_iff.mp hstep
        simp only [hstep, Nat.add_sub_cancel, decodeFrom_skip] at h
        have hshorter : after.length < length := by
          simp only [List.length_cons, List.length_append] at hlength
          omega
        obtain ⟨more, rfl, hmore⟩ := ih after.length hshorter _ h rfl
        refine ⟨c :: more, by simp, ?_⟩
        rw [encode, List.flatMap_cons, hencode, List.cons_append]
        exact congrArg (fun bytes => lead :: (tail ++ bytes)) hmore

/-- Bytes that decode are the bytes of a text, and of no other. -/
theorem decode_eq_ok_iff : decode bytes = .ok cs ↔ encode cs = bytes := by
  constructor
  · intro h
    obtain ⟨more, rfl, hbytes⟩ := encode_of_decodeFrom 0 h
    exact hbytes
  · rintro rfl
    exact decode_encode cs

/-! ## Without complaints -/

theorem decodeLossyFrom_skip (tail after : List UInt8) :
    decodeLossyFrom tail.length (tail ++ after) = decodeLossyFrom 0 after := by
  induction tail with
  | nil => rfl
  | cons b tail ih => rw [List.length_cons, List.cons_append, decodeLossyFrom, ih]

/-- A character that stands in front of bytes is read, whatever they are. -/
theorem decodeLossy_encodeChar (c : Char) (after : List UInt8) :
    decodeLossy (encodeChar c ++ after) = c :: decodeLossy after := by
  obtain ⟨lead, tail, hencode, hstep⟩ := step_encodeChar c after
  rw [hencode, List.cons_append, decodeLossy, decodeLossyFrom]
  simp only [hstep, Nat.add_sub_cancel, decodeLossyFrom_skip, decodeLossy]

end ModulePins.Text.Utf8
