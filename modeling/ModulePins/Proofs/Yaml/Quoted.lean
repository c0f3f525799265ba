import ModulePins.Proofs.Yaml.Cursor
import ModulePins.Proofs.Yaml.Runs
import ModulePins.Yaml.Scalar.Quoted
import Mathlib.Algebra.Group.Nat.Defs

/-!
# Quoted scalars are read as they were written

A scalar that was written between quotes is read up to its closing quote, and what comes out is what
its runs or pieces stand for. The reader does not care where the scalar stands, so all is said about
the characters that are left.
-/

namespace ModulePins.Yaml

variable {indent : Nat} {c : Char} {cs rest text tail bs : List Char} {double : Bool}

theorem isSpaceOrTab_eq_false_of_isBreak (h : isBreak c = true) : isSpaceOrTab c = false := by
  rw [← Bool.not_eq_true]
  intro hblank
  simp only [isSpaceOrTab, Bool.or_eq_true, beq_iff_eq] at hblank
  rcases hblank with rfl | rfl <;> cases h

namespace Quoted

theorem emptyLines_of_breaks {fuel : Nat} {cur : Cursor} (read : List Char)
    (h : cur.rest = bs ++ (List.replicate (indent + 1) ' ' ++ rest))
    (hbreaks : ∀ c ∈ bs, isBreak c = true ∧ c ≠ '\r')
    (hrest : ∀ c ∈ rest.head?, isSpaceOrTab c = false ∧ isBreak c = false)
    (hfuel : bs.length < fuel) :
    ∃ after : Cursor, after.rest = rest ∧
      emptyLines read fuel cur = .ok (read ++ bs.map Printer.breakRead, after) := by
  induction bs generalizing fuel cur read with
  | nil =>
    obtain ⟨fuel, rfl⟩ := Nat.exists_eq_add_of_lt hfuel
    have hskip : (cur.skip isSpaceOrTab).rest = rest := by
      rw [Cursor.rest_skip, h, List.nil_append, List.dropWhile_append_of_pos]
      · cases rest with
        | nil => rfl
        | cons c rest => simp [(hrest c rfl).1]
      · intro c hc
        simp [List.eq_of_mem_replicate hc, isSpaceOrTab]
    have hmark : documentMark? cur.rest = none := by
      rw [h]
      exact documentMark?_spaces (Nat.succ_pos indent) rest
    refine ⟨cur.skip isSpaceOrTab, hskip, ?_⟩
    simp only [List.length_nil, Nat.zero_add, emptyLines, hmark]
    rw [Cursor.break?_eq_none fun c hc => (hrest c (hskip ▸ hc)).2]
    simp
  | cons b bs ih =>
    obtain ⟨fuel, rfl⟩ := Nat.exists_eq_add_one.mpr (Nat.zero_lt_of_lt hfuel)
    obtain ⟨hb, hr⟩ := hbreaks b List.mem_cons_self
    have hmark : documentMark? cur.rest = none := by
      rw [h]
      refine documentMark?_eq_none fun c hc => ?_
      obtain rfl : b = c := by simpa using hc
      constructor <;> rintro rfl <;> cases hb
    have hskip : cur.skip isSpaceOrTab = cur := by
      rw [Cursor.skip, Cursor.span_of_head]
      simpa [h] using isSpaceOrTab_eq_false_of_isBreak hb
    have hnext : cur.next.rest = bs ++ (List.replicate (indent + 1) ' ' ++ rest) :=
      Cursor.rest_next_of_rest h
    obtain ⟨after, hafter, hread⟩ := ih (read ++ [Printer.breakRead b]) hnext
      (fun c hc => hbreaks c (List.mem_cons_of_mem _ hc)) (Nat.lt_of_succ_lt_succ hfuel)
    refine ⟨after, hafter, ?_⟩
    simp only [emptyLines, hmark, hskip, Cursor.break?_eq_some h hb hr]
    simpa using hread

theorem gap_of_blanks {cur : Cursor}
    (h : ∀ c ∈ (cur.rest.dropWhile isSpaceOrTab).head?, isBreak c = false) :
    gap cur =
      .ok (cur.rest.takeWhile isSpaceOrTab,
        cur.advance (cur.rest.takeWhile isSpaceOrTab).length) := by
  have hbreak : (cur.skip isSpaceOrTab).break? = none :=
    Cursor.break?_eq_none (by rwa [Cursor.rest_skip])
  unfold gap
  rw [Cursor.skip] at hbreak
  rw [Cursor.span] at hbreak ⊢
  simp only [hbreak]

theorem gap_of_breaks {cur : Cursor}
    (h : cur.rest = c :: bs ++ (List.replicate (indent + 1) ' ' ++ rest))
    (hbreaks : ∀ b ∈ c :: bs, isBreak b = true ∧ b ≠ '\r')
    (hrest : ∀ c ∈ rest.head?, isSpaceOrTab c = false ∧ isBreak c = false) :
    ∃ after : Cursor, after.rest = rest ∧
      gap cur = .ok (folded (Printer.breakRead c) (bs.map Printer.breakRead), after) := by
  obtain ⟨hc, hr⟩ := hbreaks c List.mem_cons_self
  have hspan : cur.span isSpaceOrTab = ([], cur) :=
    Cursor.span_of_head (by simpa [h] using isSpaceOrTab_eq_false_of_isBreak hc)
  have hnext : cur.next.rest = bs ++ (List.replicate (indent + 1) ' ' ++ rest) :=
    Cursor.rest_next_of_rest h
  have hfuel : bs.length < cur.next.rest.length + 1 := by
    rw [hnext, List.length_append]
    omega
  obtain ⟨after, hafter, hread⟩ := emptyLines_of_breaks [] hnext
    (fun b hb => hbreaks b (List.mem_cons_of_mem _ hb)) hrest hfuel
  refine ⟨after, hafter, ?_⟩
  simp only [gap, hspan, Cursor.break?_eq_some h hc hr, hread]
  rfl

/-- What is left is read up to the closing quote as the given text. -/
def Reads (double : Bool) (cs text tail : List Char) : Prop :=
  ∀ cur : Cursor, cur.rest = cs → ∀ fuel, cs.length < fuel → ∀ read,
    ∃ after : Cursor, after.rest = tail ∧
      readFrom double read fuel cur = .ok (read.reverse ++ text, after)

namespace Reads

theorem of_step
    (h : ∀ cur : Cursor, cur.rest = cs → ∀ fuel, cs.length < fuel + 1 → ∀ read,
      ∃ after : Cursor, after.rest = tail ∧
        readFrom double read (fuel + 1) cur = .ok (read.reverse ++ text, after)) :
    Reads double cs text tail := by
  intro cur hcur fuel hfuel read
  obtain ⟨fuel, rfl⟩ := Nat.exists_eq_add_one.mpr (Nat.zero_lt_of_lt hfuel)
  exact h cur hcur fuel hfuel read

theorem close_double : Reads true ('"' :: tail) [] tail := by
  refine .of_step fun cur hcur fuel hfuel read => ?_
  refine ⟨cur.next, Cursor.rest_next_of_rest hcur, ?_⟩
  simp [readFrom, hcur, isSpaceOrTab, isBreak, isLineEnd, isSeparator]

theorem close_single (h : tail.head? ≠ some '\'') : Reads false ('\'' :: tail) [] tail := by
  refine .of_step fun cur hcur fuel hfuel read => ?_
  refine ⟨cur.next, Cursor.rest_next_of_rest hcur, ?_⟩
  simp [readFrom, hcur, isSpaceOrTab, isBreak, isLineEnd, isSeparator, h]

theorem char (h : Reads double cs text tail) (hblank : isSpaceOrTab c = false)
    (hbreak : isBreak c = false) (hc : c ∉ if double then ['"', '\\'] else ['\'']) :
    Reads double (c :: cs) (c :: text) tail := by
  refine .of_step fun cur hcur fuel hfuel read => ?_
  obtain ⟨after, hafter, hread⟩ := h cur.next (Cursor.rest_next_of_rest hcur) fuel
    (by simpa using hfuel) (c :: read)
  refine ⟨after, hafter, ?_⟩
  cases double <;> simp_all [readFrom]

theorem space (h : Reads double cs text tail)
    (hcs : ∀ c ∈ (cs.dropWhile isSpaceOrTab).head?, isBreak c = false) :
    Reads double (' ' :: cs) (' ' :: text) tail := by
  refine .of_step fun cur hcur fuel hfuel read => ?_
  have hnext : cur.next.rest = cs := Cursor.rest_next_of_rest hcur
  have hgap : gap cur =
      .ok (' ' :: cs.takeWhile isSpaceOrTab,
        cur.next.advance (cs.takeWhile isSpaceOrTab).length) := by
    rw [gap_of_blanks (by rw [hcur]; exact hcs), hcur]
    rfl
  have hstep : readFrom double read (fuel + 1) cur =
      readFrom double ((' ' :: cs.takeWhile isSpaceOrTab).reverse ++ read) fuel
        (cur.next.advance (cs.takeWhile isSpaceOrTab).length) := by
    simp [readFrom, hcur, isSpaceOrTab, hgap, bind, Except.bind]
  rw [hstep]
  cases hhead : cs.head?.any isSpaceOrTab with
  | true =>
    -- more blanks follow, which the reader takes together with this one
    obtain ⟨after, hafter, hread⟩ := h cur.next hnext (fuel + 1) (by simp at hfuel; omega)
      (' ' :: read)
    refine ⟨after, hafter, ?_⟩
    obtain ⟨d, more, rfl⟩ : ∃ d more, cs = d :: more := by
      cases cs with
      | nil => cases hhead
      | cons d more => exact ⟨d, more, rfl⟩
    have hd : isSpaceOrTab d = true := hhead
    rw [readFrom] at hread
    simp only [hnext, hd, Bool.true_or, if_true] at hread
    rw [gap_of_blanks (by rwa [hnext]), hnext] at hread
    simpa [bind, Except.bind] using hread
  | false =>
    have htake : cs.takeWhile isSpaceOrTab = [] := by
      cases cs with
      | nil => rfl
      | cons d more => exact List.takeWhile_cons_of_neg (by simpa using hhead)
    obtain ⟨after, hafter, hread⟩ := h cur.next hnext fuel (by simpa using hfuel) (' ' :: read)
    exact ⟨after, hafter, by simpa [htake, Cursor.advance] using hread⟩

theorem lines (h : Reads double rest text tail)
    (hbreaks : ∀ b ∈ c :: bs, isBreak b = true ∧ b ≠ '\r')
    (hrest : ∀ c ∈ rest.head?, isSpaceOrTab c = false ∧ isBreak c = false) :
    Reads double (c :: bs ++ (List.replicate (indent + 1) ' ' ++ rest))
      (folded (Printer.breakRead c) (bs.map Printer.breakRead) ++ text) tail := by
  refine .of_step fun cur hcur fuel hfuel read => ?_
  obtain ⟨between, hbetween, hgap⟩ := gap_of_breaks hcur hbreaks hrest
  obtain ⟨after, hafter, hread⟩ := h between hbetween fuel (by simp at hfuel; omega)
    ((folded (Printer.breakRead c) (bs.map Printer.breakRead)).reverse ++ read)
  refine ⟨after, hafter, ?_⟩
  have hc : isBreak c = true := (hbreaks c List.mem_cons_self).1
  rw [readFrom, hcur]
  simp only [List.cons_append, hc, Bool.or_true, if_true, hgap]
  simpa [bind, Except.bind] using hread

theorem newLine (h : Reads double rest text tail)
    (hrest : ∀ c ∈ rest.head?, isSpaceOrTab c = false ∧ isBreak c = false) :
    Reads double (Printer.newLine (indent + 1) ++ rest) (' ' :: text) tail :=
  have hbreaks : ∀ b ∈ ['\n'], isBreak b = true ∧ b ≠ '\r' := fun b hb => by
    rw [List.mem_singleton.mp hb]
    decide
  h.lines hbreaks hrest

theorem escaped (h : Reads true rest text tail) {chars : List Char}
    (hescape : ∀ cur : Cursor, cur.rest = '\\' :: cs ++ rest →
      ∃ after : Cursor, after.rest = rest ∧ escape cur = .ok (chars, after)) :
    Reads true ('\\' :: cs ++ rest) (chars ++ text) tail := by
  refine .of_step fun cur hcur fuel hfuel read => ?_
  obtain ⟨between, hbetween, hchars⟩ := hescape cur hcur
  obtain ⟨after, hafter, hread⟩ := h between hbetween fuel (by simp at hfuel; omega)
    (chars.reverse ++ read)
  refine ⟨after, hafter, ?_⟩
  rw [readFrom, hcur]
  simp only [List.cons_append, hchars]
  simpa [bind, Except.bind, isSpaceOrTab, isBreak, isLineEnd, isSeparator] using hread

end Reads

/-! ### Escapes -/

theorem hexValue?_upper {d : Nat} (h : d < 16) :
    hexValue? (Nat.digitChar d).toUpper = some d := by
  revert d
  decide

theorem hexNumber?_toDigits (n : Nat) :
    hexNumber? ((Nat.toDigits 16 n).map Char.toUpper) = some n := by
  induction n using Nat.strongRecOn with
  | ind n ih =>
    by_cases h : n < 16
    · rw [Nat.toDigits_of_lt_base h]
      simp [hexNumber?, hexValue?_upper h]
    · have hlt : n / 16 < n := by omega
      have hdigit : n % 16 < 16 := by omega
      have hhead := ih _ hlt
      unfold hexNumber? at hhead ⊢
      rw [Nat.toDigits_of_base_le (by decide) (by omega), List.map_append, List.foldlM_append, hhead]
      simp [hexValue?_upper hdigit]
      omega

theorem hexNumber?_hexDigits (digits n : Nat) :
    hexNumber? (Printer.hexDigits digits n) = some n := by
  have hzeros : ∀ k, (List.replicate k '0').foldlM
      (fun n c => (hexValue? c).map (16 * n + ·)) 0 = some 0 := by
    intro k
    induction k with
    | zero => rfl
    | succ k ih => rw [List.replicate_succ, List.foldlM_cons]; exact ih
  have hdigits := hexNumber?_toDigits n
  unfold hexNumber? at hdigits ⊢
  rw [Printer.hexDigits, List.foldlM_append, hzeros]
  exact hdigits

theorem length_hexDigits {digits n : Nat} (hpos : 0 < digits) (h : n < 16 ^ digits) :
    (Printer.hexDigits digits n).length = digits := by
  have hle : (Nat.toDigits 16 n).length ≤ digits :=
    (Nat.length_toDigits_le_iff (by decide) hpos).mpr h
  simp only [Printer.hexDigits, List.length_append, List.length_replicate, List.length_map]
  omega

theorem escape?_of_shortEscape? {letter : Char} (h : Printer.shortEscape? c = some letter) :
    escape? letter = some c := by
  rw [← Char.ofNat_toNat c]
  unfold Printer.shortEscape? at h
  split at h <;> cases h
  all_goals simp_all [escape?]

theorem ofCodePoint_toNat (c : Char) : ofCodePoint c.toNat = .ok c := by
  have hvalid : c.toNat.isValidChar := c.valid
  have hsmall : ¬0x7FFFFFFF < c.toNat ∧ ¬0x10FFFF < c.toNat := by
    rcases hvalid with h | h <;> omega
  have hwhole : ¬(0xD800 ≤ c.toNat ∧ c.toNat < 0xE000) := by
    rcases hvalid with h | h <;> omega
  simp [ofCodePoint, hsmall, hwhole]

variable {cur : Cursor}

theorem escape_of_letter {letter : Char} (h : cur.rest = '\\' :: letter :: rest)
    (hletter : escape? letter = some c) :
    ∃ after : Cursor, after.rest = rest ∧ escape cur = .ok ([c], after) := by
  have hhead := Cursor.head?_next_of_rest h
  refine ⟨cur.advance 2, by rw [Cursor.rest_advance, h]; rfl, ?_⟩
  unfold escape
  rw [hhead]
  simp only [hletter]

theorem escape_of_digits {letter : Char} {digits : Nat}
    (h : cur.rest = '\\' :: letter :: (Printer.hexDigits digits c.toNat ++ rest))
    (hletter : escape? letter = none) (hwidth : escapeWidth? letter = some digits)
    (hpos : 0 < digits) (hc : c.toNat < 16 ^ digits) :
    ∃ after : Cursor, after.rest = rest ∧ escape cur = .ok ([c], after) := by
  have hhead := Cursor.head?_next_of_rest h
  have hlength := length_hexDigits hpos hc
  have hdigits : (cur.rest.drop 2).take digits = Printer.hexDigits digits c.toNat := by
    rw [h]
    exact List.take_left' hlength
  refine ⟨cur.advance (2 + digits), ?_, ?_⟩
  · rw [Cursor.rest_advance, h, Nat.add_comm]
    exact List.drop_left' hlength
  · unfold escape
    rw [hhead]
    simp only [hletter, hwidth, hdigits, hexNumber?_hexDigits, hlength, ofCodePoint_toNat]
    rfl

theorem escape_of_escape (h : cur.rest = Printer.escape c ++ rest) :
    ∃ after : Cursor, after.rest = rest ∧ escape cur = .ok ([c], after) := by
  unfold Printer.escape at h
  split at h
  next letter hshort => exact escape_of_letter h (escape?_of_shortEscape? hshort)
  next =>
    dsimp only at h
    have hvalid : c.toNat.isValidChar := c.valid
    split at h
    · exact escape_of_digits h rfl rfl (by decide) (by omega)
    split at h
    · exact escape_of_digits h rfl rfl (by decide) (by omega)
    · exact escape_of_digits h rfl rfl (by decide) (by rcases hvalid with h | h <;> omega)

theorem escape_of_newLine (h : cur.rest = '\\' :: Printer.newLine (indent + 1) ++ rest)
    (hrest : ∀ c ∈ rest.head?, isSpaceOrTab c = false ∧ isBreak c = false) :
    ∃ after : Cursor, after.rest = rest ∧ escape cur = .ok ([], after) := by
  have hnext : cur.next.rest = '\n' :: (List.replicate (indent + 1) ' ' ++ rest) :=
    Cursor.rest_next_of_rest h
  have hhead : cur.next.head? = some '\n' := by
    rw [Cursor.head?, hnext]
    rfl
  have hline : cur.next.next.rest = [] ++ (List.replicate (indent + 1) ' ' ++ rest) :=
    Cursor.rest_next_of_rest hnext
  obtain ⟨after, hafter, hread⟩ := emptyLines_of_breaks [] hline (by simp) hrest
    (Nat.succ_pos cur.next.next.rest.length)
  refine ⟨after, hafter, ?_⟩
  unfold escape
  rw [hhead]
  have hbreak := Cursor.break?_eq_some hnext (by decide) (by decide)
  have hletter : escape? '\n' = none := rfl
  have hwidth : escapeWidth? '\n' = none := rfl
  simp only [hletter, hwidth, hbreak]
  exact hread

end Quoted

/-! ### Between double quotes -/

namespace Printer

namespace Piece

/-- Whether a piece may stand before another one, or before the closing quote. Blanks are lost
before a fold and after any line end, and a mark keeps one space. -/
def Joins : Piece → Option Piece → Prop
  | raw c, next => isEscaped c = false ∧ (c = ' ' → next ≠ some fold)
  | escaped _, _ => True
  | fold, next => next ∉ [some (raw ' '), some fold, some joint]
  | joint, next => next ∉ [some (raw ' '), some fold, some joint]
  | mark, next => next = some (raw ' ')

end Piece

/-- Pieces that stand next to each other join. -/
def Joined : List Piece → Prop
  | [] => True
  | piece :: rest => piece.Joins rest.head? ∧ Joined rest

variable {column run : Nat} {before : Option Char} {ps : List Piece}

/-- A character that needs no escape is no line end and no mark, and if it is blank it is a
space. -/
theorem of_isEscaped_eq_false (h : isEscaped c = false) :
    isBreak c = false ∧ c ≠ '\t' ∧ c ≠ '"' ∧ c ≠ '\\' := by
  refine ⟨?_, ?_, ?_, ?_⟩
  · rw [← Bool.not_eq_true]
    intro hbreak
    simp only [isBreak, isLineEnd, isSeparator, Bool.or_eq_true, beq_iff_eq] at hbreak
    obtain (((rfl | rfl) | hn) | (hn | hn)) := hbreak
    · cases h
    · cases h
    all_goals simp [isEscaped, isSeparator, hn] at h
  all_goals rintro rfl; cases h

theorem isSpaceOrTab_eq_false (h : isEscaped c = false) (hc : c ≠ ' ') :
    isSpaceOrTab c = false := by
  simp [isSpaceOrTab, hc, (of_isEscaped_eq_false h).2.1]

theorem escape_eq_cons (c : Char) : ∃ more, escape c = '\\' :: more := by
  unfold escape
  split
  · exact ⟨_, rfl⟩
  · dsimp only
    split
    · exact ⟨_, rfl⟩
    split
    · exact ⟨_, rfl⟩
    · exact ⟨_, rfl⟩

theorem head?_pieces_of_le (h : column ≤ width) :
    (pieces indent column run before cs).head? =
      cs.head?.map fun c => if isEscaped c then .escaped c else .raw c := by
  have hlt : ¬width < column := by omega
  cases cs with
  | nil => rfl
  | cons c rest =>
    unfold pieces
    dsimp only
    rw [List.head?_cons, Option.map_some]
    by_cases hescaped : isEscaped c = true
    · rw [if_pos hescaped, if_pos hescaped]
      split
      · split <;> rfl
      · rfl
    · rw [if_neg hescaped, if_neg hescaped, if_neg (by simp [hlt])]
      rfl

/-- No line is folded right behind a space. -/
theorem head?_pieces_ne_fold (h : 0 < run) :
    (pieces indent column run (some ' ') cs).head? ≠ some .fold := by
  cases cs with
  | nil => simp [pieces]
  | cons c rest =>
    unfold pieces
    dsimp only
    by_cases hescaped : isEscaped c = true
    · rw [if_pos hescaped]
      split
      · split <;> simp
      · simp
    rw [if_neg hescaped]
    split
    next hinner =>
      obtain rfl : c = ' ' := by
        simp only [Bool.and_eq_true, Bool.or_eq_true, decide_eq_true_eq, beq_iff_eq] at hinner
        exact hinner.1.2.resolve_right (by omega)
      rw [if_neg (by simp [breaksQuietly])]
      simp
    next => simp

theorem joined_pieces (hindent : indent < width) (column run : Nat) (before : Option Char)
    (cs : List Char) : Joined (pieces indent column run before cs) := by
  induction cs generalizing column run before with
  | nil => trivial
  | cons c rest ih =>
    have hnotEscaped : isEscaped ' ' = false := by decide
    -- the first piece of a line, which is a space only if the text goes on with one
    have hline : ∀ column, column ≤ width → rest.head? ≠ some ' ' → ∀ run,
        (pieces indent column run (some c) rest).head? ∉
          [some (Piece.raw ' '), some .fold, some .joint] := by
      intro column hcolumn hspace run
      rw [head?_pieces_of_le hcolumn]
      cases rest with
      | nil => simp
      | cons d rest =>
        have hd : d ≠ ' ' := by simpa using hspace
        cases hescaped : isEscaped d <;> simp [hescaped, hd]
    -- behind a raw character, which starts or continues a run
    have hraw : ∀ column run, 0 < run → isEscaped c = false →
        (Piece.raw c).Joins (pieces indent column run (some c) rest).head? := by
      intro column run hrun hescaped
      refine ⟨hescaped, ?_⟩
      rintro rfl
      exact head?_pieces_ne_fold hrun
    unfold pieces
    dsimp only
    by_cases hescaped : isEscaped c = true
    · rw [if_pos hescaped]
      split
      · split
        next hquiet =>
          have hspace := head?_ne_space_of_breaksQuietly hquiet
          exact ⟨trivial, hline _ (Nat.le_of_lt hindent) hspace _, ih ..⟩
        next =>
          split
          next hspace =>
            have hspace := eq_of_beq hspace
            have hmark : (pieces indent (indent + 1) 0 (some c) rest).head? = some (.raw ' ') := by
              rw [head?_pieces_of_le hindent, hspace]
              rfl
            exact ⟨trivial, by simp [Piece.Joins], hmark, ih ..⟩
          next hspace => exact ⟨trivial, hline _ (Nat.le_of_lt hindent) (by simpa using hspace) _, ih ..⟩
      · exact ⟨trivial, ih ..⟩
    rw [if_neg hescaped]
    have hescaped : isEscaped c = false := by simpa using hescaped
    split
    · split
      next hquiet =>
        have hspace := head?_ne_space_of_breaksQuietly hquiet
        split
        next => exact ⟨hline _ (Nat.le_of_lt hindent) hspace _, ih ..⟩
        next hc =>
          have hc : c ≠ ' ' := by simpa using hc
          exact ⟨by simp [Piece.Joins, hc], hraw _ _ Nat.one_pos hescaped, ih ..⟩
      next =>
        split
        next hc =>
          obtain rfl := eq_of_beq hc
          exact ⟨by simp [Piece.Joins], rfl, hraw _ _ Nat.one_pos hescaped, ih ..⟩
        next hc =>
          have hc : c ≠ ' ' := by simpa using hc
          exact ⟨by simp [Piece.Joins, hc], hraw _ _ Nat.one_pos hescaped, ih ..⟩
    · exact ⟨hraw _ _ (Nat.succ_pos run) hescaped, ih ..⟩

theorem head?_written_of_line (h : Joined ps)
    (hhead : ps.head? ∉ [some (Piece.raw ' '), some .fold, some .joint]) :
    ∀ c ∈ (ps.flatMap (Piece.written indent) ++ '"' :: tail).head?,
      isSpaceOrTab c = false ∧ isBreak c = false := by
  cases ps with
  | nil => simp [isSpaceOrTab]; decide
  | cons piece rest =>
    cases piece with
    | raw d =>
      have hd := h.1.1
      have hspace : d ≠ ' ' := by simpa using hhead
      simpa [Piece.written] using ⟨isSpaceOrTab_eq_false hd hspace, (of_isEscaped_eq_false hd).1⟩
    | escaped d =>
      obtain ⟨more, hmore⟩ := escape_eq_cons d
      simp [Piece.written, hmore]
      decide
    | fold => simp at hhead
    | joint => simp at hhead
    | mark => simp [Piece.written]; decide

theorem head?_written_of_blanks (h : Joined ps) (hhead : ps.head? ≠ some .fold) :
    ∀ c ∈ ((ps.flatMap (Piece.written indent) ++ '"' :: tail).dropWhile isSpaceOrTab).head?,
      isBreak c = false := by
  induction ps with
  | nil => intro c hc; simp [isSpaceOrTab] at hc; subst hc; rfl
  | cons piece rest ih =>
    cases piece with
    | raw d =>
      by_cases hd : d = ' '
      · subst hd
        simpa [Piece.written, isSpaceOrTab] using ih h.2 (h.1.2 rfl)
      · simp [Piece.written, isSpaceOrTab_eq_false h.1.1 hd, (of_isEscaped_eq_false h.1.1).1]
    | escaped d =>
      obtain ⟨more, hmore⟩ := escape_eq_cons d
      simp [Piece.written, hmore, isSpaceOrTab]
      decide
    | fold => simp at hhead
    | joint => simp [Piece.written, isSpaceOrTab]; decide
    | mark => simp [Piece.written, isSpaceOrTab]; decide

end Printer

namespace Quoted

open Printer

/-- The pieces are read, and so is what follows the first of them: a space behind a mark is read
together with the mark. -/
theorem Reads.pieces_and_tail {ps : List Piece} (h : Joined ps) :
    Reads true (ps.flatMap (Piece.written (indent + 1)) ++ '"' :: tail)
        (ps.flatMap Piece.read) tail ∧
      Reads true (ps.tail.flatMap (Piece.written (indent + 1)) ++ '"' :: tail)
        (ps.tail.flatMap Piece.read) tail := by
  induction ps with
  | nil => exact ⟨.close_double, .close_double⟩
  | cons piece rest ih =>
    obtain ⟨hjoins, hrest⟩ := h
    obtain ⟨htail, hmore⟩ := ih hrest
    refine ⟨?_, htail⟩
    rw [List.flatMap_cons, List.flatMap_cons, List.append_assoc]
    cases piece with
    | raw c =>
      obtain ⟨hbreak, -, hquote, hslash⟩ := of_isEscaped_eq_false hjoins.1
      by_cases hc : c = ' '
      · subst hc
        exact htail.space (head?_written_of_blanks hrest (hjoins.2 rfl))
      · exact htail.char (isSpaceOrTab_eq_false hjoins.1 hc) hbreak (by simp [hquote, hslash])
    | escaped c =>
      obtain ⟨more, hmore⟩ := escape_eq_cons c
      rw [Piece.written, hmore]
      exact htail.escaped fun cur hcur => escape_of_escape (hmore ▸ hcur)
    | fold => exact htail.newLine (head?_written_of_line hrest hjoins)
    | joint =>
      exact htail.escaped fun cur hcur => escape_of_newLine hcur (head?_written_of_line hrest hjoins)
    | mark =>
      cases rest with
      | nil => cases hjoins
      | cons d more =>
        obtain rfl : d = .raw ' ' := by simpa [Piece.Joins] using hjoins
        have hescape : ∀ cur : Cursor, cur.rest = '\\' :: [' '] ++
            (more.flatMap (Piece.written (indent + 1)) ++ '"' :: tail) → _ :=
          fun cur hcur => escape_of_letter hcur rfl
        exact hmore.escaped hescape

theorem Reads.doubleFrom (hindent : indent + 1 < width) (column : Nat) (cs tail : List Char) :
    Reads true (doubleFrom (indent + 1) column 0 none cs ++ tail)
      ((pieces (indent + 1) column 0 none cs).flatMap Piece.read) tail := by
  rw [doubleFrom_eq_pieces, List.append_assoc]
  exact (pieces_and_tail (joined_pieces hindent ..)).1

end Quoted

/-! ### Between single quotes -/

namespace Printer

variable {kind : Kind} {run : List Char}

theorem spacesMeetBreaks_eq_false :
    spacesMeetBreaks cs = false ↔
      cs.IsChain fun a b => ¬(a = ' ' ∧ isInnerBreak b = true) ∧ ¬(isInnerBreak a = true ∧ b = ' ') := by
  induction cs using spacesMeetBreaks.induct with
  | case1 a b rest ih => simp [spacesMeetBreaks, ih]
  | case2 cs h =>
    have hshort : cs = [] ∨ ∃ c, cs = [c] := by
      match cs, h with
      | [], _ => exact .inl rfl
      | [c], _ => exact .inr ⟨c, rfl⟩
      | a :: b :: rest, h => exact absurd rfl (h a b rest)
    obtain rfl | ⟨c, rfl⟩ := hshort <;> simp [spacesMeetBreaks]

theorem IsRun.kindOf_next (h : IsRun kind run rest) (hkind : kind ≠ .word)
    (hmeet : spacesMeetBreaks (run ++ rest) = false) : ∀ c ∈ rest.head?, kindOf c = .word := by
  intro c hc
  obtain ⟨d, hd⟩ : ∃ d, run.getLast? = some d :=
    ⟨_, List.getLast?_eq_some_getLast h.ne_nil⟩
  have hlast := h.kindOf_eq d (List.mem_of_mem_getLast? hd)
  have hjoin := (List.isChain_append.mp (spacesMeetBreaks_eq_false.mp hmeet)).2.2 d hd c hc
  have hends := h.ends c hc
  rw [← kindOf_eq_space, ← kindOf_eq_space, ← kindOf_eq_break, ← kindOf_eq_break, hlast] at hjoin
  cases kind <;> cases hnext : kindOf c <;> simp_all

theorem of_kindOf_eq_break (h : kindOf c = .break) (hspecial : isSpecial c = false) :
    isBreak c = true ∧ c ≠ '\r' := by
  have hbreak := kindOf_eq_break.mp h
  refine ⟨?_, by rintro rfl; cases hspecial⟩
  simp only [isInnerBreak, Bool.or_eq_true, beq_iff_eq] at hbreak
  simp only [isBreak, isLineEnd, Bool.or_eq_true, beq_iff_eq]
  grind

theorem head?_singleFrom {column : Nat} {first : Bool} (hspecial : ∀ c ∈ cs, isSpecial c = false)
    (hword : ∀ c ∈ cs.head?, kindOf c = .word) :
    ∀ c ∈ (singleFrom indent column first (runs cs) ++ tail).head?,
      isSpaceOrTab c = false ∧ isBreak c = false := by
  cases cs with
  | nil => simp [runs, singleFrom]; decide
  | cons c cs =>
    obtain ⟨run, rest, hcs, hrun⟩ := exists_isRun c cs
    have hc := of_kindOf_eq_word (hword c rfl) (hspecial c List.mem_cons_self)
    rw [hcs, hrun.runs_append]
    obtain ⟨more, rfl⟩ : ∃ more, run = c :: more := by
      cases run with
      | nil => exact absurd rfl hrun.ne_nil
      | cons d more => exact ⟨more, by rw [(List.cons.inj hcs).1]⟩
    obtain ⟨hspace, hbreak⟩ := kindOf_eq_word.mp (hword c rfl)
    simpa [singleFrom, hspace, hbreak] using hc

end Printer

namespace Quoted

open Printer

variable {run : List Char}

theorem Reads.spaces (h : Reads double cs text tail)
    (hcs : ∀ c ∈ cs.head?, isSpaceOrTab c = false ∧ isBreak c = false) (n : Nat) :
    Reads double (List.replicate n ' ' ++ cs) (List.replicate n ' ' ++ text) tail := by
  induction n with
  | zero => exact h
  | succ n ih =>
    refine ih.space ?_
    rw [List.dropWhile_append_of_pos fun c hc => by simp [List.eq_of_mem_replicate hc, isSpaceOrTab]]
    cases cs with
    | nil => simp
    | cons c cs => simpa [(hcs c rfl).1] using (hcs c rfl).2

theorem Reads.word (h : Reads false cs text tail)
    (hrun : ∀ c ∈ run, isSpaceOrTab c = false ∧ isBreak c = false) (hquote : '\'' ∉ run) :
    Reads false (run ++ cs) (run ++ text) tail := by
  induction run with
  | nil => exact h
  | cons c run ih =>
    obtain ⟨hblank, hbreak⟩ := hrun c List.mem_cons_self
    have hc : c ≠ '\'' := by
      rintro rfl
      exact hquote List.mem_cons_self
    exact (ih (fun d hd => hrun d (List.mem_cons_of_mem _ hd))
      fun hd => hquote (List.mem_cons_of_mem _ hd)).char hblank hbreak (by simpa using hc)

theorem Reads.singleFrom (hspecial : ∀ c ∈ cs, isSpecial c = false)
    (hmeet : spacesMeetBreaks cs = false) (hquote : '\'' ∉ cs) (htail : tail.head? ≠ some '\'')
    (column : Nat) (first : Bool) :
    Reads false (singleFrom (indent + 1) column first (runs cs) ++ tail)
      ((runs cs).flatMap runRead) tail := by
  induction cs using runs_induction generalizing column first with
  | nil => exact .close_single htail
  | append kind run rest hrun ih =>
    have hmeets : spacesMeetBreaks rest = false :=
      spacesMeetBreaks_eq_false.mpr (List.isChain_append.mp (spacesMeetBreaks_eq_false.mp hmeet)).2.1
    have hrest : ∀ c ∈ rest, isSpecial c = false := fun c hc => hspecial c (List.mem_append_right _ hc)
    have hin : ∀ c ∈ run, isSpecial c = false := fun c hc => hspecial c (List.mem_append_left _ hc)
    have ih := ih hrest hmeets fun h => hquote (List.mem_append_right _ h)
    rw [hrun.runs_append, List.flatMap_cons]
    obtain ⟨c, more, rfl⟩ := List.exists_cons_of_ne_nil hrun.ne_nil
    have hc := hrun.kindOf_eq c List.mem_cons_self
    cases kind with
    | «break» =>
      have hnext := hrun.kindOf_next nofun hmeet
      have hbreak := kindOf_eq_break.mp hc
      have hbreaks : ∀ b ∈ c :: more, isBreak b = true ∧ b ≠ '\r' := fun b hb =>
        of_kindOf_eq_break (hrun.kindOf_eq b hb) (hin b hb)
      simpa [Printer.singleFrom, runRead, hbreak] using
        (ih (indent + 1) false).lines hbreaks (head?_singleFrom hrest hnext)
    | space =>
      have hnext := hrun.kindOf_next nofun hmeet
      have hspaces := hrun.eq_replicate
      obtain rfl := kindOf_eq_space.mp hc
      have hread : runRead (' ' :: more) = ' ' :: more := rfl
      have hbreak : isInnerBreak ' ' = false := rfl
      rw [hread]
      unfold Printer.singleFrom
      rw [if_neg (by simp [hbreak])]
      split
      next hfold =>
        simp only [Bool.and_eq_true, beq_iff_eq] at hfold
        rw [hfold.1.1.1, List.append_assoc]
        exact (ih _ _).newLine (head?_singleFrom hrest hnext)
      next =>
        rw [hspaces, List.append_assoc]
        exact (ih _ _).spaces (head?_singleFrom hrest hnext) _
    | word =>
      obtain ⟨hspace, hbreak⟩ := kindOf_eq_word.mp hc
      have hword : ∀ d ∈ c :: more, isSpaceOrTab d = false ∧ isBreak d = false := fun d hd =>
        of_kindOf_eq_word (hrun.kindOf_eq d hd) (hin d hd)
      simpa [Printer.singleFrom, runRead, hbreak, hspace] using
        (ih _ false).word hword fun h => hquote (List.mem_append_left _ h)

theorem read_of_reads {cur : Cursor} (h : Reads double cs text tail)
    (hcur : cur.rest = (if double then '"' else '\'') :: cs) :
    ∃ after : Cursor, after.rest = tail ∧ read cur = .ok (text, after) := by
  have hhead : (cur.head? == some '"') = double := by
    rw [Cursor.head?, hcur]
    cases double <;> rfl
  have hnext : cur.next.rest = cs := Cursor.rest_next_of_rest hcur
  rw [read, hhead]
  exact h cur.next hnext _ (by rw [hcur, List.length_cons]; omega) []

end Quoted

end ModulePins.Yaml
