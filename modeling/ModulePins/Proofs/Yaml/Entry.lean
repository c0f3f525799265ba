import ModulePins.Proofs.Text.Ascii
import ModulePins.Proofs.Yaml.Scan

/-!
# Scanning names, colons and dashes

A name and its colon open a mapping or go on with one, and a dash starts an item of a list.
-/

namespace ModulePins.Yaml.Scan

variable {s t : Scan} {rest : List Char} {c : Char} {column n : Nat} {may : Bool}
variable {inner outer : List Nat} {name : List Char}

theorem of_isAlpha (h : c.isAlpha = true) (rest : List Char) :
    c ≠ '-' ∧ c ≠ '.' ∧ c ≠ ':' ∧ isInk c = true ∧ StartsPlain c rest := by
  have hrange := Text.isAlpha_range h
  have hsmall : ∀ n, 0x7F < n → c.toNat ≠ n := by omega
  have hnot : ∀ d : Char, d.isAlpha = false → c ≠ d := by
    rintro d hd rfl
    simp [hd] at h
  have hbreak : isBreak c = false := by simp [isBreak, isLineEnd, isSeparator, hnot, hsmall]
  refine ⟨hnot _ rfl, hnot _ rfl, hnot _ rfl, ?_, ?_, by omega, ?_, ?_, hbreak⟩
  · simp [isInk, hbreak, isByteOrderMark, hsmall]
  · simp [hnot]
  · simp [hnot]
  · simp [isSpaceOrTab, hnot]

/-- The scan stands at a colon, and the name of `n` characters before it is kept as a possible
key. -/
structure Awaits (s : Scan) (rest : List Char) (column n number : Nat) : Prop where
  rest_eq : s.cursor.rest = ':' :: rest
  column_eq : s.cursor.column = column + n
  flow : s.flow = []
  version : s.version = {}
  key : ∃ key, s.key = some key ∧ s.isStale key = false ∧ key.number = number ∧ key.column = column

theorem At.word (h : At s (name ++ ':' :: rest) column true)
    (hleaves : Leaves column s.columns inner outer) (hne : name ≠ [])
    (hname : ∀ c ∈ name, c.isAlpha = true) (hlong : name.length ≤ longestKey)
    (hover : wordOver rest = true) :
    ∃ t : Scan, s.step = .ok (t, false) ∧
      Awaits t rest column name.length (s.tokens.size + inner.length) ∧ t.columns = outer ∧
      t.tokens = s.tokens ++ (inner.map (fun _ => Token.blockEnd) ++
        [.scalar true (String.ofList name)]) := by
  obtain ⟨c, more, rfl⟩ := List.exists_cons_of_ne_nil hne
  rw [List.cons_append] at h
  obtain ⟨index, line, key, hkey, hstep⟩ := h.step_eq hleaves
  have hletter := fun d hd => of_isAlpha (hname d hd)
  obtain ⟨hminus, hdot, -, -, hstarts⟩ := hletter c List.mem_cons_self (more ++ ':' :: rest)
  have hboundary : documentMark? (c :: (more ++ ':' :: rest)) = none :=
    documentMark?_eq_none fun d hd => by
      obtain rfl : c = d := by simpa using hd
      exact ⟨hminus, hdot⟩
  have hlast : (c :: more).getLast? ≠ some ':' := fun hlast =>
    (hletter ':' (List.mem_of_mem_getLast? hlast) []).2.2.1 rfl
  have hink : ∀ d ∈ c :: more, isSpaceOrTab d = false ∧ isInk d = true := fun d hd =>
    have hd := hletter d hd []
    ⟨hd.2.2.2.2.not_blank, hd.2.2.2.1⟩
  have hread : Plain.read false false (reach outer)
      { rest := c :: (more ++ ':' :: rest), index, line, column } = _ :=
    Plain.read_name rfl hne hink hlast hover
  have htoken := hstep _ ((readToken_eq_readPlain rfl rfl hstarts
    (by simp [Cursor.boundary?, hboundary])).trans
    (readPlain_eq (saveKey_of_may rfl hkey rfl) rfl rfl hread))
  refine ⟨_, htoken, ⟨rfl, rfl, rfl, rfl, _, rfl, ?_, ?_, rfl⟩, rfl, ?_⟩
  · simpa [isStale, putScalar] using hlong
  · simp [size_append]
  · simp [putScalar, emit, append_push]

theorem readToken_colon {k : Bool} {key : PossibleKey} (hflow : s.flow = [])
    (hkey : s.key = some key) (hcur : s.cursor.rest = ':' :: rest) (hcolumn : s.cursor.column ≠ 0)
    (hover : wordOver rest = true) :
    s.readToken k ':' rest = .ok ((s.insertKey key).take 1 .value) := by
  have hvalue : s.marksValue k = true := by simp [marksValue, hflow, hcur, hover]
  have hcurrent : s.currentKey = some key := by simp [currentKey, hflow, hkey]
  unfold readToken
  simp [Cursor.boundary?, hcolumn, hvalue, readValueMark, hcurrent, pure, Except.pure]

theorem insertKey_eq {key : PossibleKey} {tokens : Array Token} {before more : List Token}
    (hflow : s.flow = []) (htokens : s.tokens = tokens ++ (before ++ more))
    (hnumber : key.number = tokens.size + before.length)
    (hle : ∀ o ∈ s.columns.head?, o ≤ key.column) :
    s.insertKey key = { s with
      key := none, mayStartKey := false
      columns := if s.columns.head? = some key.column then s.columns else key.column :: s.columns
      tokens := tokens ++ (before ++ ((if s.columns.head? = some key.column then [] else
        [.blockMapping]) ++ .key :: more)) } := by
  obtain ⟨cursor, allTokens, columns, flow, possible, mayStartKey, version⟩ := s
  dsimp only at hflow htokens hle
  subst hflow htokens
  have hinsert : ∀ (token : Token) (more : List Token),
      (tokens ++ (before ++ more)).insertIdxIfInBounds key.number token =
        tokens ++ (before ++ token :: more) := by
    intro token more
    rw [← append_append, ← append_append, hnumber, ← size_append, append_insert]
  cases columns with
  | nil => simp [insertKey, setKey, inFlow, opensBlock, hinsert]
  | cons current columns =>
    have hcurrent : current ≤ key.column := hle current rfl
    by_cases hopen : current = key.column
    · simp [insertKey, setKey, inFlow, opensBlock, hinsert, hopen]
    · have hlt : current < key.column := by omega
      simp [insertKey, setKey, inFlow, opensBlock, hinsert, hopen, hlt]

/-- The colon puts the key before its name and opens a mapping, unless one is open in this
column. -/
theorem Awaits.colon {number : Nat} {tokens : Array Token} {before : List Token} {token : Token}
    (h : Awaits s rest column n number) (htokens : s.tokens = tokens ++ (before ++ [token]))
    (hnumber : number = tokens.size + before.length) (hle : ∀ o ∈ s.columns.head?, o ≤ column)
    (hn : 0 < n) (hover : wordOver rest = true) :
    ∃ t : Scan, s.step = .ok (t, false) ∧ Behind t rest (column + n + 1) ∧
      t.columns = (if s.columns.head? = some column then s.columns else column :: s.columns) ∧
      t.tokens = tokens ++ (before ++ ((if s.columns.head? = some column then [] else
        [.blockMapping]) ++ [.key, token, .value])) := by
  obtain ⟨key, hkey, hfresh, rfl, rfl⟩ := h.key
  have hcur := h.rest_eq
  have hskipped : s.skipped = s := by
    have hmark : s.skipByteOrderMark = s := skipByteOrderMark_eq_self (by simp [hcur]; decide)
    rw [skipped, hmark, skipBlanks_of_spaces (n := 0) h.flow hcur (by simp [Starts]; decide), ← hcur]
    rfl
  have hblocks : (if s.inFlow then s else s.closeBlocks s.cursor.column) = s := by
    have hleaves : Leaves s.cursor.column s.columns [] s.columns := by
      refine ⟨rfl, by simp, fun o ho => ?_⟩
      rw [h.column_eq]
      exact Nat.le_add_right_of_le (hle o ho)
    rw [if_neg (by simp [inFlow, h.flow]), closeBlocks_eq rfl hleaves]
    simp
  have htoken := readToken_colon (k := s.keyPending) h.flow hkey hcur
    (by rw [h.column_eq]; omega) hover
  rw [insertKey_eq h.flow htokens hnumber hle] at htoken
  have hnext := Cursor.next_of_ink hcur (by decide)
  refine ⟨_, step_eq_readToken hskipped (dropStale_of_fresh h.flow hkey hfresh) hblocks hcur htoken,
    ⟨?_, ?_, h.flow, rfl, rfl, h.version⟩, rfl, ?_⟩
  · simp [take, emit, Cursor.advance, hnext]
  · simp [take, emit, Cursor.advance, hnext, h.column_eq]
  · simp [take, emit, append_push]

theorem At.entry (h : At s (name ++ ':' :: rest) column true)
    (hleaves : Leaves column s.columns inner outer) (hne : name ≠ [])
    (hname : ∀ c ∈ name, c.isAlpha = true) (hlong : name.length ≤ longestKey)
    (hover : wordOver rest = true) :
    ∃ t : Scan, Steps s t ∧ Behind t rest (column + name.length + 1) ∧
      t.columns = (if outer.head? = some column then outer else column :: outer) ∧
      t.tokens = s.tokens ++ (inner.map (fun _ => Token.blockEnd) ++
        ((if outer.head? = some column then [] else [.blockMapping]) ++
          [.key, .scalar true (String.ofList name), .value])) := by
  obtain ⟨t, hstep, hawaits, rfl, htokens⟩ := h.word hleaves hne hname hlong hover
  have hpos := List.length_pos_iff.mpr hne
  obtain ⟨u, hcolon, hbehind, hcolumns, htokens⟩ :=
    hawaits.colon htokens (by rw [List.length_map]) hleaves.outer_le hpos hover
  have hlength := h.length_le
  rw [List.length_append] at hlength
  refine ⟨u, .head hstep ?_ (.single hcolon ?_), hbehind, hcolumns, htokens⟩
  · rw [hawaits.rest_eq]
    omega
  · rw [hbehind.rest_eq, hawaits.rest_eq]
    exact Nat.lt_succ_self _

theorem documentMark?_dash (h : wordOver rest = true) : documentMark? ('-' :: rest) = none := by
  unfold documentMark?
  split
  next more heq =>
    obtain rfl : rest = '-' :: '-' :: more := (List.cons.inj heq).2
    cases h
  next heq => cases (List.cons.inj heq).1
  next => rfl

theorem readToken_dash {keyPending : Bool} (hflow : s.flow = [])
    (hkey : ∀ key ∈ s.key, key.required = false) (hmay : s.mayStartKey = true)
    (hcur : s.cursor.rest = '-' :: rest) (hopen : s.columns.head? = some s.cursor.column)
    (hover : wordOver rest = true) :
    s.readToken keyPending '-' rest = .ok { s with
      cursor := s.cursor.next, tokens := s.tokens.push .item, key := none, mayStartKey := true } := by
  obtain ⟨cursor, tokens, columns, flow, key, mayStartKey, version⟩ := s
  dsimp only at hflow hkey hmay hcur hopen
  subst hflow hmay
  have hboundary : cursor.boundary? = none := by
    simp [Cursor.boundary?, hcur, documentMark?_dash hover]
  have hdrop : key.any PossibleKey.required = false := by
    cases key with
    | none => rfl
    | some key => exact hkey key rfl
  obtain ⟨more, rfl⟩ : ∃ more, columns = cursor.column :: more := by
    cases columns with
    | nil => cases hopen
    | cons current more => exact ⟨more, by rw [Option.some.inj hopen]⟩
  unfold readToken
  simp [hboundary, hover, readItem, inFlow, openBlock, opensBlock, dropKey, currentKey, hdrop, setKey,
    take, emit, bind, Except.bind, pure, Except.pure, Cursor.advance]

/-- A mark before an item of a list whose column is that of the mapping around it. -/
theorem At.item (h : At s ('-' :: rest) column true)
    (hleaves : Leaves column s.columns inner outer) (houter : outer.head? = some column)
    (hover : wordOver rest = true) :
    ∃ t : Scan, Steps s t ∧ t.cursor.rest = rest ∧ t.cursor.column = column + 1 ∧ t.flow = [] ∧
      t.key = none ∧ t.mayStartKey = true ∧ t.version = {} ∧ t.columns = outer ∧
      t.tokens = s.tokens ++ (inner.map (fun _ => Token.blockEnd) ++ [.item]) := by
  obtain ⟨index, line, key, hkey, hstep⟩ := h.step_eq hleaves
  have hitem := hstep _ (readToken_dash rfl hkey rfl rfl houter hover)
  have hnext : Cursor.next { rest := '-' :: rest, index, line, column } = _ :=
    Cursor.next_of_ink rfl (by decide)
  have hlength := h.length_le
  refine ⟨_, .single hitem ?_, ?_, ?_, rfl, rfl, rfl, rfl, rfl, ?_⟩
  · dsimp only
    rw [hnext]
    exact hlength
  · dsimp only
    rw [hnext]
  · dsimp only
    rw [hnext]
  · simp [append_push]

end ModulePins.Yaml.Scan
