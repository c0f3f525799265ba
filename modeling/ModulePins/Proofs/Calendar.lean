import ModulePins.Calendar.Reader
import ModulePins.Proofs.SemVer.Plain
import Mathlib.Algebra.Group.Nat.Defs

/-!
# Written instants read back

The text of an instant is read as the instant, whatever its distance from universal time.
-/

namespace ModulePins.Instant

/-- The parts of an instant are in range, and the name of its zone was not kept. -/
structure IsValid (t : Instant) : Prop where
  date : t.date.isValid = true
  hour_le : t.hour ≤ 23
  minute_le : t.minute ≤ 59
  second_le : t.second ≤ 59
  micro_le : t.micro ≤ 999999
  zone : ∀ z ∈ t.zone, z.name = none ∧ z.minutes.natAbs < 1440

variable {n width : Nat} {rest : List Char}

/-! ### Padded numbers -/

theorem length_padded (h : n < 10 ^ width) (hwidth : 0 < width) :
    (padded width n).toList.length = width := by
  have hle : (Nat.toDigits 10 n).length ≤ width := (Nat.length_toDigits_le_iff (by decide) hwidth).mpr h
  simp only [padded, String.toList_ofList, List.length_append, List.length_replicate]
  omega

theorem isDigit_padded : ∀ c ∈ (padded width n).toList, c.isDigit = true := by
  intro c hc
  rw [padded, String.toList_ofList] at hc
  obtain hc | hc := List.mem_append.mp hc
  · rw [List.eq_of_mem_replicate hc]
    rfl
  · exact isDigit_decimals n c hc

theorem digitsValue_padded : Text.digitsValue (padded width n).toList = n := by
  have hzeros : ∀ k, Text.digitsValue (List.replicate k '0') = 0 := by
    intro k
    induction k with
    | zero => rfl
    | succ k ih =>
      rw [List.replicate_succ', digitsValue_append, ih]
      rfl
  have hfoldl := digitsValue_decimals n
  have hzero := hzeros (width - (Nat.toDigits 10 n).length)
  unfold Text.digitsValue at hfoldl hzero ⊢
  rw [padded, String.toList_ofList, List.foldl_append, hzero]
  exact hfoldl

theorem digits?_padded (h : n < 10 ^ width) (hwidth : 0 < width) :
    digits? width ((padded width n).toList ++ rest) = some (n, rest) := by
  have hlength := length_padded h hwidth
  have htake : ((padded width n).toList ++ rest).take width = (padded width n).toList :=
    List.take_left' hlength
  have hdrop : ((padded width n).toList ++ rest).drop width = rest := List.drop_left' hlength
  have hall : (padded width n).toList.all Char.isDigit = true :=
    List.all_eq_true.mpr isDigit_padded
  unfold digits?
  simp only [htake, hdrop, hlength, hall, digitsValue_padded]
  rfl

/-! ### The parts of an instant -/

def fractionText (micro : Nat) : String :=
  if micro = 0 then "" else "." ++ padded 6 micro

def zoneText (zone : Option Zone) : String :=
  (zone.map fun zone => if zone.minutes = 0 then "Z" else offsetText zone.minutes).getD ""

theorem text_eq (t : Instant) :
    t.text = t.date.text ++ "T" ++ padded 2 t.hour ++ ":" ++ padded 2 t.minute ++ ":" ++
      padded 2 t.second ++ fractionText t.micro ++ zoneText t.zone :=
  rfl

theorem date?_text {d : Date} (h : d.isValid = true) :
    date? (d.text.toList ++ rest) = some (d, rest) := by
  have hdays : Date.daysInMonth d.year d.month ≤ 31 := by
    unfold Date.daysInMonth
    repeat' split
    all_goals decide
  have hvalid := h
  simp only [Date.isValid, Bool.and_eq_true, decide_eq_true_eq] at hvalid
  have hyear : d.year < 10 ^ 4 := by omega
  have hmonth : d.month < 10 ^ 2 := by omega
  have hday : d.day < 10 ^ 2 := by omega
  have htext : d.text.toList ++ rest = (padded 4 d.year).toList ++ '-' ::
      ((padded 2 d.month).toList ++ '-' :: ((padded 2 d.day).toList ++ rest)) := by
    simp [Date.text, String.toList_append]
  rw [htext, date?, digits?_padded hyear (by decide)]
  simp [mark?, digits?_padded hmonth, digits?_padded hday, h]

theorem fraction?_text {micro : Nat} (hmicro : micro ≤ 999999)
    (hrest : ∀ c ∈ rest.head?, c.isDigit = false ∧ c ≠ '.' ∧ c ≠ ',') :
    fraction? ((fractionText micro).toList ++ rest) = some (micro, rest) := by
  unfold fractionText
  by_cases hzero : micro = 0
  · have hmark : mark? ['.', ','] rest = none := by
      cases rest with
      | nil => rfl
      | cons c rest => simp [mark?, hrest c rfl]
    simp [hzero, fraction?, hmark]
  · have hlt : micro < 10 ^ 6 := by omega
    have htake : ((padded 6 micro).toList ++ rest).takeWhile Char.isDigit = (padded 6 micro).toList := by
      rw [List.takeWhile_append_of_pos isDigit_padded]
      cases rest with
      | nil => simp
      | cons c rest => simp [hrest c rfl]
    have hlength := length_padded hlt (by decide)
    have hne : (padded 6 micro).toList.isEmpty = false := by
      rw [List.isEmpty_eq_false_iff]
      intro hnil
      simp [hnil] at hlength
    have hkept : (padded 6 micro).toList.take 6 = (padded 6 micro).toList :=
      List.take_of_length_le (Nat.le_of_eq hlength)
    rw [if_neg hzero, String.toList_append, List.append_assoc]
    change fraction? ('.' :: ((padded 6 micro).toList ++ rest)) = _
    simp [fraction?, mark?, htake, hne, hkept, digitsValue_padded, hlength]

theorem toList_offsetText (minutes : Int) :
    (offsetText minutes).toList = (if minutes < 0 then '-' else '+') ::
      ((padded 2 (minutes.natAbs / 60)).toList ++ ':' :: (padded 2 (minutes.natAbs % 60)).toList) := by
  unfold offsetText
  split <;> simp [String.toList_append]

theorem zone?_offsetText {minutes : Int} (h : minutes.natAbs < 1440) :
    zone? (offsetText minutes).toList = some (some { minutes }) := by
  obtain ⟨n, hn⟩ : ∃ n, minutes.natAbs = n := ⟨_, rfl⟩
  rw [hn] at h
  have hhours : n / 60 < 10 ^ 2 := by omega
  have hminutes : n % 60 < 10 ^ 2 := by omega
  have hread : digits? 2 (padded 2 (n % 60)).toList = some (n % 60, []) := by
    rw [← List.append_nil (padded 2 _).toList]
    exact digits?_padded hminutes (by decide)
  rw [toList_offsetText, hn]
  unfold zone?
  split
  next hnil => cases hnil
  next hcons =>
    have hsign := (List.cons.inj hcons).1
    split at hsign <;> cases hsign
  next hcons =>
    have hsign := (List.cons.inj hcons).1
    split at hsign <;> cases hsign
  next sign rest _ _ hcons =>
    obtain ⟨rfl, rfl⟩ := List.cons.inj hcons
    simp only [digits?_padded hhours (by decide), bind, Option.bind_some]
    simp only [mark?, List.contains_cons, BEq.rfl, Bool.true_or, if_true, Option.getD_some, hread,
      Option.bind_some]
    have hsize : ((n / 60 : Nat) : Int) * 60 + ((n % 60 : Nat) : Int) = n := by omega
    have hle : n / 60 ≤ 23 ∧ n % 60 ≤ 59 := by omega
    rw [hsize]
    by_cases hneg : minutes < 0
    · have hsigned : -(n : Int) = minutes := by omega
      simp [hneg, hle, hsigned]
    · have hsigned : (n : Int) = minutes := by omega
      simp [hneg, hle, hsigned]

theorem zone?_text {zone : Option Zone} (h : ∀ z ∈ zone, z.name = none ∧ z.minutes.natAbs < 1440) :
    zone? (zoneText zone).toList = some zone := by
  cases zone with
  | none => rfl
  | some z =>
    obtain ⟨minutes, name⟩ := z
    obtain ⟨hname, hlt⟩ := h _ rfl
    dsimp only at hname hlt
    subst hname
    by_cases hzero : minutes = 0
    · subst hzero
      rfl
    · simpa [zoneText, hzero] using zone?_offsetText hlt

theorem head?_zoneText (zone : Option Zone) :
    ∀ c ∈ (zoneText zone).toList.head?, c.isDigit = false ∧ c ≠ '.' ∧ c ≠ ',' := by
  intro c hc
  cases zone with
  | none => simp [zoneText] at hc
  | some z =>
    rw [zoneText, Option.map_some, Option.getD_some] at hc
    split at hc
    · obtain rfl : 'Z' = c := by simpa using hc
      decide
    · rw [toList_offsetText, List.head?_cons] at hc
      obtain rfl := Option.some.inj hc
      split <;> decide

theorem dateTime?_text {t : Instant} (h : t.IsValid) : dateTime? t.text.toList = some t := by
  have hhour : t.hour < 10 ^ 2 := Nat.lt_of_le_of_lt h.hour_le (by decide)
  have hminute : t.minute < 10 ^ 2 := Nat.lt_of_le_of_lt h.minute_le (by decide)
  have hsecond : t.second < 10 ^ 2 := Nat.lt_of_le_of_lt h.second_le (by decide)
  have htext : t.text.toList = t.date.text.toList ++ 'T' :: ((padded 2 t.hour).toList ++ ':' ::
      ((padded 2 t.minute).toList ++ ':' :: ((padded 2 t.second).toList ++
        ((fractionText t.micro).toList ++ (zoneText t.zone).toList)))) := by
    simp [text_eq, String.toList_append]
  rw [htext, dateTime?, date?_text h.date]
  simp [mark?, seconds?, digits?_padded hhour, digits?_padded hminute, digits?_padded hsecond,
    fraction?_text h.micro_le (head?_zoneText _), zone?_text h.zone, h.hour_le, h.minute_le,
    h.second_le]

/-! ### What a written instant is made of -/

/-- A text without blanks and with nothing outside ASCII. -/
def IsGraphic (text : String) : Prop :=
  ∀ c ∈ text.toList, 0x20 < c.toNat ∧ c.toNat < 0x7F

instance (text : String) : Decidable (IsGraphic text) :=
  decidable_of_iff (text.toList.all fun c => 0x20 < c.toNat && c.toNat < 0x7F) (by simp [IsGraphic])

theorem IsGraphic.append {s t : String} (hs : IsGraphic s) (ht : IsGraphic t) :
    IsGraphic (s ++ t) := by
  intro c hc
  rw [String.toList_append] at hc
  obtain hc | hc := List.mem_append.mp hc
  · exact hs c hc
  · exact ht c hc

theorem isGraphic_padded (width n : Nat) : IsGraphic (padded width n) := by
  intro c hc
  have hrange := Text.isDigit_range (isDigit_padded c hc)
  omega

theorem isGraphic_offsetText (minutes : Int) : IsGraphic (offsetText minutes) := by
  have hsign : IsGraphic (if minutes < 0 then "-" else "+") := by split <;> decide
  have hcolon : IsGraphic ":" := by decide
  exact ((hsign.append (isGraphic_padded _ _)).append hcolon).append (isGraphic_padded _ _)

theorem isGraphic_zoneText (zone : Option Zone) : IsGraphic (zoneText zone) := by
  cases zone with
  | none => decide
  | some z =>
    rw [zoneText, Option.map_some, Option.getD_some]
    split
    · decide
    · exact isGraphic_offsetText z.minutes

theorem isGraphic_fractionText (micro : Nat) : IsGraphic (fractionText micro) := by
  have hpoint : IsGraphic "." := by decide
  unfold fractionText
  split
  · decide
  · exact hpoint.append (isGraphic_padded _ _)

theorem isGraphic_text (t : Instant) : IsGraphic t.text := by
  have hminus : IsGraphic "-" := by decide
  have hcolon : IsGraphic ":" := by decide
  have hmark : IsGraphic "T" := by decide
  have hdate : IsGraphic t.date.text :=
    ((((isGraphic_padded _ _).append hminus).append (isGraphic_padded _ _)).append hminus).append
      (isGraphic_padded _ _)
  have hhour := (hdate.append hmark).append (isGraphic_padded 2 t.hour)
  have hminute := (hhour.append hcolon).append (isGraphic_padded 2 t.minute)
  have hsecond := (hminute.append hcolon).append (isGraphic_padded 2 t.second)
  rw [text_eq]
  exact (hsecond.append (isGraphic_fractionText t.micro)).append (isGraphic_zoneText t.zone)

theorem read?_text {t : Instant} (h : t.IsValid) : read? t.text = some t := by
  rw [read?, dateTime?_text h]
  rfl

end ModulePins.Instant
