import ModulePins.Proofs.Yaml.Plain
import ModulePins.Yaml.Tokens

/-!
# Steps of a scan

What the scan does at a token depends on what comes next and on the open blocks alone. Before a
token it goes over blanks and line ends, gives up keys whose colon would come too late and closes
the blocks that are indented deeper.
-/

namespace ModulePins.Yaml.Scan

/-- Several tokens are read, each from at least one character. -/
inductive Steps : Scan → Scan → Prop
  | refl (s : Scan) : Steps s s
  | head {s t u : Scan} : s.step = .ok (t, false) → t.cursor.rest.length < s.cursor.rest.length → Steps t u →
      Steps s u

variable {s t u : Scan} {rest next : List Char} {c : Char} {column k n : Nat} {may : Bool}

theorem Steps.trans (h : Steps s t) (h' : Steps t u) : Steps s u := by
  induction h with
  | refl => exact h'
  | head hstep hlt _ ih => exact .head hstep hlt (ih h')

theorem Steps.single (h : s.step = .ok (t, false))
    (hlt : t.cursor.rest.length < s.cursor.rest.length) : Steps s t :=
  .head h hlt (.refl t)

/-- Fuel for every character that is left is enough. -/
theorem Steps.run_eq {fuel : Nat} (h : Steps s t) (hlast : t.step = .ok (u, true))
    (hfuel : s.cursor.rest.length < fuel) : run fuel s = .ok u := by
  induction h generalizing fuel with
  | refl s =>
    obtain ⟨fuel, rfl⟩ : ∃ n, fuel = n + 1 := ⟨fuel - 1, by omega⟩
    simp [run, hlast, bind, Except.bind, pure, Except.pure]
  | head hstep hlt _ ih =>
    obtain ⟨fuel, rfl⟩ : ∃ n, fuel = n + 1 := ⟨fuel - 1, by omega⟩
    simp only [run, hstep, bind, Except.bind]
    exact ih hlast (by omega)

/-- The scan after the blanks before a token. -/
def skipped (s : Scan) : Scan :=
  s.skipByteOrderMark.skipBlanks (s.skipByteOrderMark.cursor.rest.length + 1)

/-- The next token stands at the head of `rest` in a column; `may` tells whether a key may start
there. No key that has to be one is waiting for its colon. -/
structure At (s : Scan) (rest : List Char) (column : Nat) (may : Bool) : Prop where
  flow : s.flow = []
  key : ∀ key ∈ s.key, key.required = false
  version : s.version = {}
  length_le : rest.length ≤ s.cursor.rest.length
  skipped_eq : ∃ index line, s.skipped =
    { s with cursor := { rest, index, line, column }, mayStartKey := may }

/-- A token does not start with a blank or a comment. -/
def Starts (rest : List Char) : Prop :=
  ∀ c ∈ rest.head?, c ≠ ' ' ∧ c ≠ '#' ∧ isInk c = true

theorem of_isInk (h : isInk c = true) : isBreak c = false ∧ isByteOrderMark c = false := by
  simpa [isInk] using h

theorem skip_spaces {cur : Cursor} (h : cur.rest = List.replicate n ' ' ++ rest)
    (hrest : ∀ c ∈ rest.head?, c ≠ ' ' ∧ c ≠ '#') :
    (cur.skip (· == ' ')).skipComment =
      { rest, index := cur.index + n, line := cur.line, column := cur.column + n } := by
  rw [Cursor.skip, Cursor.span_spaces h fun c hc => (hrest c hc).1, Cursor.skipComment, if_neg]
  simp only [Cursor.head?, beq_iff_eq]
  intro hhead
  exact (hrest _ hhead).2 rfl

theorem skipBlanks_of_spaces {fuel : Nat} (hflow : s.flow = [])
    (h : s.cursor.rest = List.replicate n ' ' ++ rest) (hrest : Starts rest) :
    s.skipBlanks (fuel + 1) =
      { s with
        cursor := { rest, index := s.cursor.index + n, line := s.cursor.line
                    column := s.cursor.column + n } } := by
  have hskip := skip_spaces h fun c hc => ⟨(hrest c hc).1, (hrest c hc).2.1⟩
  rw [skipBlanks]
  simp only [inFlow, hflow, List.isEmpty_nil, Bool.not_true, Bool.false_and, Bool.or_false, hskip]
  rw [Cursor.break?_eq_none fun c hc => (of_isInk (hrest c hc).2.2).1]

theorem skipBlanks_of_line (fuel : Nat) (hflow : s.flow = [])
    (h : s.cursor.rest = List.replicate n ' ' ++ '\n' :: (List.replicate k ' ' ++ rest))
    (hrest : Starts rest) :
    ∃ index line, s.skipBlanks (fuel + 2) =
      { s with cursor := { rest, index, line, column := k }, mayStartKey := true } := by
  have hskip := skip_spaces h (by simp)
  have hbreak : Cursor.break? { rest := '\n' :: (List.replicate k ' ' ++ rest)
                                index := s.cursor.index + n, line := s.cursor.line
                                column := s.cursor.column + n } = _ :=
    Cursor.break?_eq_some rfl (by decide) (by decide)
  rw [Cursor.next_of_feed rfl] at hbreak
  rw [skipBlanks]
  simp only [inFlow, hflow, List.isEmpty_nil, Bool.not_true, Bool.false_and, Bool.or_false, hskip,
    hbreak]
  rw [skipBlanks_of_spaces (n := k) rfl rfl hrest]
  exact ⟨s.cursor.index + n + 1 + k, s.cursor.line + 1, by simp⟩

theorem skipByteOrderMark_eq_self (h : ∀ c ∈ s.cursor.rest.head?, isByteOrderMark c = false) :
    s.skipByteOrderMark = s := by
  rw [skipByteOrderMark, if_neg]
  cases hhead : s.cursor.rest.head? with
  | none => simp [Cursor.head?, hhead]
  | some c => simp [Cursor.head?, hhead, h c hhead]

theorem At.of_spaces (hflow : s.flow = []) (hkey : ∀ key ∈ s.key, key.required = false)
    (hversion : s.version = {}) (h : s.cursor.rest = List.replicate n ' ' ++ rest)
    (hrest : Starts rest) : At s rest (s.cursor.column + n) s.mayStartKey := by
  have hhead : s.skipByteOrderMark = s := by
    apply skipByteOrderMark_eq_self
    rw [h]
    cases n with
    | zero => exact fun c hc => (of_isInk (hrest c hc).2.2).2
    | succ n => simp [List.replicate_succ]; decide
  refine ⟨hflow, hkey, hversion, by simp [h], s.cursor.index + n, s.cursor.line, ?_⟩
  rw [skipped, hhead, skipBlanks_of_spaces hflow h hrest]

theorem At.of_line (hflow : s.flow = []) (hkey : ∀ key ∈ s.key, key.required = false)
    (hversion : s.version = {})
    (h : s.cursor.rest = List.replicate n ' ' ++ '\n' :: (List.replicate k ' ' ++ rest))
    (hrest : Starts rest) : At s rest k true := by
  have hhead : s.skipByteOrderMark = s := by
    apply skipByteOrderMark_eq_self
    rw [h]
    cases n with
    | zero => simp; decide
    | succ n => simp [List.replicate_succ]; decide
  obtain ⟨fuel, hfuel⟩ : ∃ fuel, s.cursor.rest.length + 1 = fuel + 2 :=
    ⟨s.cursor.rest.length - 1, by simp [h]; omega⟩
  obtain ⟨index, line, hskip⟩ := skipBlanks_of_line fuel hflow h hrest
  refine ⟨hflow, hkey, hversion, by simp [h]; omega, index, line, ?_⟩
  rw [skipped, hhead, hfuel, hskip]

/-- The columns of the blocks that go on at a token in a column, and of those that it closes. -/
structure Leaves (column : Nat) (columns inner outer : List Nat) : Prop where
  columns_eq : columns = inner ++ outer
  inner_gt : ∀ i ∈ inner, column < i
  outer_le : ∀ o ∈ outer.head?, o ≤ column

theorem closeBlocks_eq {columns inner outer : List Nat} (hs : s.columns = columns)
    (h : Leaves column columns inner outer) :
    s.closeBlocks column =
      { s with columns := outer, tokens := s.tokens ++ inner.map fun _ => Token.blockEnd } := by
  have htake : s.columns.takeWhile (column < ·) = inner := by
    rw [hs, h.columns_eq, List.takeWhile_append_of_pos fun i hi => by simp [h.inner_gt i hi]]
    cases outer with
    | nil => simp
    | cons o outer => simp [Nat.not_lt.mpr (h.outer_le o rfl)]
  rw [closeBlocks, htake, hs, h.columns_eq, List.drop_left]

theorem exists_dropStale (hflow : s.flow = []) (hkey : ∀ key ∈ s.key, key.required = false) :
    ∃ key : Option PossibleKey, (∀ k ∈ key, k.required = false) ∧
      s.dropStale = .ok { s with key } := by
  obtain ⟨cursor, tokens, columns, flow, key, mayStartKey, version⟩ := s
  dsimp only at hflow hkey
  subst hflow
  cases key with
  | none => exact ⟨none, nofun, by simp [dropStale]⟩
  | some key =>
    refine ⟨_, fun k hk => ?_, by simp [dropStale, hkey key rfl]; rfl⟩
    exact hkey k (Option.mem_filter_iff.mp hk).1

theorem dropStale_of_fresh {key : PossibleKey} (hflow : s.flow = []) (hkey : s.key = some key)
    (hfresh : s.isStale key = false) : s.dropStale = .ok s := by
  obtain ⟨cursor, tokens, columns, flow, key, mayStartKey, version⟩ := s
  dsimp only at hflow hkey
  subst hflow hkey
  simp [dropStale, hfresh]

def keyPending (s : Scan) : Bool :=
  (s.key.toList ++ s.flow.filterMap FlowLevel.key).any fun key => !s.isStale key

theorem step_eq_readToken {v w : Scan} (hskipped : s.skipped = t) (hstale : t.dropStale = .ok u)
    (hblocks : (if u.inFlow then u else u.closeBlocks u.cursor.column) = v)
    (hrest : v.cursor.rest = c :: rest) (htoken : v.readToken s.keyPending c rest = .ok w) :
    s.step = .ok (w, false) := by
  rw [skipped] at hskipped
  rw [keyPending] at htoken
  unfold step
  simp only [hskipped, hstale, bind, Except.bind, hblocks, hrest, htoken]
  rfl

theorem step_eq_end {v w : Scan} (hskipped : s.skipped = t) (hstale : t.dropStale = .ok u)
    (hblocks : (if u.inFlow then u else u.closeBlocks u.cursor.column) = v)
    (hrest : v.cursor.rest = []) (hend : v.closeAllBlocks.dropKey = .ok w) :
    s.step = .ok (w.emit .streamEnd, true) := by
  rw [skipped] at hskipped
  unfold step
  simp only [hskipped, hstale, bind, Except.bind, hblocks, hrest, hend]
  rfl

/-- What is done at a token: a key that waits is given up or kept, deeper blocks are closed, and the
token is read. -/
theorem At.step_eq {inner outer : List Nat} (h : At s (c :: rest) column may)
    (hleaves : Leaves column s.columns inner outer) :
    ∃ index line key, (∀ k ∈ key, PossibleKey.required k = false) ∧ ∀ w : Scan,
      ({ cursor := { rest := c :: rest, index, line, column }
         tokens := s.tokens ++ inner.map fun _ => Token.blockEnd
         columns := outer, key, mayStartKey := may : Scan }.readToken s.keyPending c rest) = .ok w →
        s.step = .ok (w, false) := by
  obtain ⟨index, line, hskipped⟩ := h.skipped_eq
  obtain ⟨key, hkey, hstale⟩ := exists_dropStale (s := { s with
    cursor := { rest := c :: rest, index, line, column }, mayStartKey := may }) h.flow h.key
  refine ⟨index, line, key, hkey, fun w htoken => step_eq_readToken hskipped hstale ?_ rfl htoken⟩
  rw [if_neg (by simp [inFlow, h.flow])]
  rw [h.flow, h.version]
  exact closeBlocks_eq rfl hleaves

/-- Whether a plain scalar may start here. -/
structure StartsPlain (c : Char) (rest : List Char) : Prop where
  not_mark : c ∉ "#,[]\x7b\x7d&*!|>\x27\"%@".toList
  not_tick : c.toNat ≠ 0x60
  goes_on : c = '?' ∨ c = ':' ∨ c = '-' → wordOver rest = false
  not_blank : isSpaceOrTab c = false
  not_break : isBreak c = false

theorem readToken_eq_readPlain {keyPending : Bool} (hflow : s.flow = [])
    (hcur : s.cursor.rest = c :: rest) (hstarts : StartsPlain c rest)
    (hboundary : s.cursor.boundary? = none) : s.readToken keyPending c rest = s.readPlain := by
  have hmark := hstarts.not_mark
  simp only [String.reduceToList, List.mem_cons, List.not_mem_nil, or_false, not_or] at hmark
  have hover : ∀ d, d = '?' ∨ d = ':' ∨ d = '-' → ¬(c = d ∧ wordOver rest = true) := by
    rintro d hd ⟨rfl, hover⟩
    simp [hstarts.goes_on hd] at hover
  have hitem := hover '-' (.inr (.inr rfl))
  have hkey : ¬(c = '?' ∧ s.marksKey = true) := by
    simpa [marksKey, inFlow, hflow, hcur] using hover '?' (.inl rfl)
  have hvalue : ¬(c = ':' ∧ s.marksValue keyPending = true) := by
    simpa [marksValue, hflow, hcur] using hover ':' (.inr (.inl rfl))
  have hplain : s.startsPlain = true := by
    by_cases hc : c = '?' ∨ c = ':' ∨ c = '-'
    · have hgoes := hstarts.goes_on hc
      simp only [startsPlain, hcur, inFlow, hflow, List.isEmpty_nil, hgoes]
      rcases hc with rfl | rfl | rfl <;> simp
    · simp only [not_or] at hc
      simp [startsPlain, hcur, isIndicator, hmark, hstarts.not_tick, hstarts.not_blank,
        hstarts.not_break, hc]
  unfold readToken
  simp [hboundary, hmark, hplain, hitem, hkey, hvalue]

theorem append_push (tokens : Array Token) (more : List Token) (token : Token) :
    (tokens ++ more).push token = tokens ++ (more ++ [token]) := by
  apply Array.ext'
  simp

theorem size_append (tokens : Array Token) (more : List Token) :
    (tokens ++ more).size = tokens.size + more.length := by
  simp [← Array.length_toList]

theorem append_append (tokens : Array Token) (more rest : List Token) :
    tokens ++ more ++ rest = tokens ++ (more ++ rest) := by
  apply Array.ext'
  simp

theorem append_insert (tokens : Array Token) (more : List Token) (token : Token) :
    (tokens ++ more).insertIdxIfInBounds tokens.size token = tokens ++ (token :: more) := by
  have hlist : ∀ before : List Token,
      (before ++ more).insertIdx before.length token = before ++ token :: more := by
    intro before
    induction before with
    | nil => rfl
    | cons first before ih => simp [ih]
  obtain ⟨tokens⟩ := tokens
  simpa using hlist tokens

/-- The scan stands right behind a mark. -/
structure Behind (s : Scan) (rest : List Char) (column : Nat) : Prop where
  rest_eq : s.cursor.rest = rest
  column_eq : s.cursor.column = column
  flow : s.flow = []
  key : s.key = none
  may : s.mayStartKey = false
  version : s.version = {}

theorem saveKey_of_may (hflow : s.flow = []) (hkey : ∀ key ∈ s.key, key.required = false)
    (hmay : s.mayStartKey = true) :
    s.saveKey = .ok { s with key := some {
      number := s.tokens.size, index := s.cursor.index, line := s.cursor.line
      column := s.cursor.column, required := s.columns.head? == some s.cursor.column } } := by
  obtain ⟨cursor, tokens, columns, flow, key, mayStartKey, version⟩ := s
  dsimp only at hflow hkey hmay
  subst hflow hmay
  have hdrop : key.any PossibleKey.required = false := by
    cases key with
    | none => rfl
    | some key => exact hkey key rfl
  simp [saveKey, dropKey, currentKey, setKey, hdrop, inFlow, bind, Except.bind, pure, Except.pure]

/-- How far the further lines of a plain scalar have to be indented. -/
def reach : List Nat → Nat
  | [] => 0
  | column :: _ => column + 1

theorem readPlain_eq {r : Plain.Result} (hsave : s.saveKey = .ok t) (hflow : t.flow = [])
    (hversion : t.version = {}) (hread : Plain.read false false (reach t.columns) t.cursor = r) :
    s.readPlain = .ok { t.putScalar true r.text r.after with mayStartKey := r.endsLine } := by
  subst hread
  have hinFlow : t.inFlow = false := by simp [inFlow, hflow]
  have holder : t.version.isOlder = false := by simp [hversion, Version.isOlder]
  unfold readPlain
  simp only [hsave, bind, Except.bind, hinFlow, holder]
  cases t.columns <;> rfl

end ModulePins.Yaml.Scan
