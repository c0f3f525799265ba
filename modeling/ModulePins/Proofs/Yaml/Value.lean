import ModulePins.Proofs.Yaml.Scan
import ModulePins.Proofs.Yaml.Quoted

/-!
# Scanning values

A text that was written behind a name and its colon is one token, and a list without items is two.
-/

namespace ModulePins.Yaml.Scan

variable {s t : Scan} {rest next : List Char} {c : Char} {column k : Nat} {may : Bool}
  {inner outer : List Nat}
variable {indent : Nat} {cs : List Char} {text : String}

theorem readToken_quote {keyPending double : Bool} {cs read : List Char} {after : Cursor}
    (hcur : s.cursor.rest = (if double then '"' else '\'') :: cs) (hcolumn : s.cursor.column ≠ 0)
    (hmay : s.mayStartKey = false) (hread : Quoted.read s.cursor = .ok (read, after)) :
    s.readToken keyPending (if double then '"' else '\'') cs =
      .ok { s.putScalar false read after with mayStartKey := false } := by
  have hsave : s.saveKey = .ok s := by simp [saveKey, hmay]
  unfold readToken
  cases double <;>
    simp [Cursor.boundary?, hcolumn, readQuoted, hsave, hread, bind, Except.bind, pure, Except.pure]

theorem Behind.quoted {double : Bool} {written read : List Char}
    (h : Behind s (' ' :: (if double then '"' else '\'') ::
      (written ++ '\n' :: (List.replicate k ' ' ++ next))) column)
    (hreads : Quoted.Reads double (written ++ '\n' :: (List.replicate k ' ' ++ next)) read
      ('\n' :: (List.replicate k ' ' ++ next)))
    (hle : ∀ o ∈ s.columns.head?, o ≤ column) (hnext : Starts next) :
    ∃ t : Scan, Steps s t ∧ At t next k true ∧ t.columns = s.columns ∧
      t.tokens = s.tokens ++ [Token.scalar false (String.ofList read)] := by
  have hat := At.of_spaces (n := 1) h.flow (by simp [h.key]) h.version h.rest_eq
    (by cases double <;> simp [Starts] <;> decide)
  rw [h.column_eq, h.may] at hat
  obtain ⟨index, line, key, hkey, hstep⟩ := hat.step_eq
    (Leaves.mk (List.nil_append _).symm nofun fun o ho => Nat.le_add_right_of_le (hle o ho))
  obtain ⟨after, hafter, hread⟩ : ∃ after : Cursor, after.rest = _ ∧
      Quoted.read { rest := (if double then '"' else '\'') ::
                      (written ++ '\n' :: (List.replicate k ' ' ++ next))
                    index, line, column := column + 1 } = _ :=
    Quoted.read_of_reads hreads rfl
  have hscalar := hstep _ (readToken_quote rfl (Nat.succ_ne_zero _) rfl hread)
  refine ⟨_, .single hscalar ?_, .of_line (n := 0) rfl hkey rfl hafter hnext, rfl, ?_⟩
  · dsimp only [putScalar]
    rw [hafter, h.rest_eq]
    simp
    omega
  · simp [putScalar, emit]

theorem saveKey_of_deeper {c₀ : Nat} {columns : List Nat} (hflow : s.flow = [])
    (hkey : ∀ key ∈ s.key, key.required = false) (hcolumns : s.columns = c₀ :: columns)
    (hlt : c₀ < s.cursor.column) :
    ∃ key : Option PossibleKey, (∀ k ∈ key, k.required = false) ∧ s.saveKey = .ok { s with key } := by
  by_cases hmay : s.mayStartKey = true
  · refine ⟨_, fun k hk => ?_, saveKey_of_may hflow hkey hmay⟩
    obtain rfl := Option.some.inj hk
    simp [hcolumns, Nat.ne_of_lt hlt]
  · exact ⟨s.key, hkey, by rw [saveKey, if_neg hmay]⟩

theorem startsPlain_of_fitsPlain (indent column : Nat) (tail : List Char)
    (hfits : Printer.fitsPlain (c :: cs) = true) :
    ∃ rest, Printer.lineFrom indent column (Printer.runs (c :: cs)) ++ tail = c :: rest ∧
      StartsPlain c rest := by
  have hwords := Printer.fitsWords_of_fitsPlain hfits
  have hmarks : Printer.hasMarks (c :: cs) = false := by
    simp only [Printer.fitsPlain, Bool.and_eq_true, Bool.not_eq_true'] at hfits
    exact hfits.2
  obtain ⟨hmark, htick, hgoes, -⟩ := Printer.of_hasMarks_eq_false hmarks
  obtain ⟨word, rest, hcs, hrun, hink, -, hspace⟩ := hwords.exists_word (List.cons_ne_nil c cs)
  obtain ⟨d, more, rfl⟩ := List.exists_cons_of_ne_nil hrun.ne_nil
  obtain ⟨rfl, rfl⟩ := List.cons.inj hcs
  obtain ⟨hblank, hinkFirst⟩ := hink c List.mem_cons_self
  rw [hcs, hrun.runs_append]
  refine ⟨_, rfl, hmark, htick, fun hc => ?_, hblank, (of_isInk hinkFirst).1⟩
  have hnext := hgoes hc
  cases more with
  | nil =>
    cases rest with
    | nil => cases hnext
    | cons e rest =>
      rw [hspace e rfl] at hnext
      cases hnext
  | cons e more =>
    obtain ⟨hblank, hinkNext⟩ := hink e (by simp)
    have hbreak := (of_isInk hinkNext).1
    simp only [isBreak, Bool.or_eq_false_iff] at hbreak
    simp [wordOver, overOr, hblank, hbreak.1]

/-- A plain value, which may start on the next line. -/
theorem At.plain {c₀ : Nat} {columns : List Nat}
    (h : At s (Printer.lineFrom indent column (Printer.runs cs) ++
      '\n' :: (List.replicate k ' ' ++ next)) column may)
    (hcolumns : s.columns = c₀ :: columns) (hindent : c₀ < indent) (hk : k ≤ c₀)
    (hle : indent ≤ column) (hfits : Printer.fitsPlain cs = true) (hne : cs ≠ [])
    (hnext : Starts next) (hmark : documentMark? (List.replicate k ' ' ++ next) = none) :
    ∃ t : Scan, Steps s t ∧ At t next k true ∧ t.columns = s.columns ∧
      t.tokens = s.tokens ++
        [Token.scalar true (String.ofList (Printer.squeezed (Printer.runs cs)))] := by
  have hwords := Printer.fitsWords_of_fitsPlain hfits
  obtain ⟨c, cs, rfl⟩ := List.exists_cons_of_ne_nil hne
  obtain ⟨rest, hline, hstarts⟩ := startsPlain_of_fitsPlain indent column
    ('\n' :: (List.replicate k ' ' ++ next)) hfits
  have hlength := h.length_le
  rw [hline] at h
  obtain ⟨index, line, key, hkey, hstep⟩ := h.step_eq (Leaves.mk (List.nil_append _).symm nofun
    fun o ho => by simp [hcolumns] at ho; omega)
  obtain ⟨saved, hsaved, hsave⟩ := saveKey_of_deeper
    (s := { cursor := { rest := c :: rest, index, line, column }, tokens := s.tokens
            columns := s.columns, key, mayStartKey := may }) rfl hkey hcolumns (by dsimp only; omega)
  have hreach : reach s.columns = c₀ + 1 := by rw [hcolumns, reach]
  obtain ⟨after, hafter, hafterColumn, hread⟩ : ∃ after : Cursor, after.rest = next ∧
      after.column = k ∧ Plain.read false false (reach s.columns)
        { rest := c :: rest, index, line, column } = _ :=
    Plain.read_lineFrom (hreach.trans_le hindent) (by omega) (by omega) hmark
      (fun c hc => ⟨(hnext c hc).1, (of_isInk (hnext c hc).2.2).1⟩) hwords hne hline.symm hle
  have hscalar := hstep _ ((readToken_eq_readPlain rfl rfl hstarts
    (by rw [Cursor.boundary?, if_neg (by dsimp only; omega)])).trans
    (readPlain_eq hsave rfl rfl hread))
  have hat : At { cursor := after, tokens := s.tokens.push (.scalar true (String.ofList
      (Printer.squeezed (Printer.runs (c :: cs))))), columns := s.columns, key := saved } next k true := by
    rw [← hafterColumn]
    exact .of_spaces (n := 0) rfl hsaved rfl hafter hnext
  refine ⟨_, .single hscalar ?_, hat, rfl, ?_⟩
  · dsimp only [putScalar]
    rw [hafter]
    simp only [List.length_append, List.length_cons] at hlength
    omega
  · simp [putScalar, emit]

theorem starts_lineFrom {tail : List Char} (hfits : Printer.fitsPlain cs = true) (hne : cs ≠ []) :
    Starts (Printer.lineFrom indent column (Printer.runs cs) ++ tail) := by
  have hwords := Printer.fitsWords_of_fitsPlain hfits
  obtain ⟨c, cs, rfl⟩ := List.exists_cons_of_ne_nil hne
  obtain ⟨rest, hline, hstarts⟩ := startsPlain_of_fitsPlain indent column tail hfits
  have hspace : c ≠ ' ' := by simpa using hwords.head
  rw [hline]
  intro d hd
  obtain rfl : c = d := by simpa using hd
  refine ⟨hspace, ?_, (hwords.of_mem List.mem_cons_self hspace).2.2⟩
  rintro rfl
  exact hstarts.not_mark (by decide)

/-- The token that a text is read as when it was written from a column on. -/
def textToken (indent column : Nat) (text : String) : Token :=
  .scalar (Printer.styleOf text == .plain) (Printer.readBack indent column text)

/-- A text that was written behind a name and its colon is read as one token. -/
theorem Behind.value {c₀ : Nat} {columns : List Nat} {text : String}
    (h : Behind s (Printer.scalar indent column text ++ '\n' :: (List.replicate k ' ' ++ next)) column)
    (hcolumns : s.columns = c₀ :: columns) (hindent : c₀ < indent) (hk : k ≤ c₀)
    (hle : indent ≤ column) (hwidth : indent < Printer.width) (hnext : Starts next)
    (hmark : documentMark? (List.replicate k ' ' ++ next) = none) :
    ∃ t : Scan, Steps s t ∧ At t next k true ∧ t.columns = s.columns ∧
      t.tokens = s.tokens ++ [textToken indent column text] := by
  obtain ⟨indent, rfl⟩ : ∃ n, indent = n + 1 := ⟨indent - 1, by omega⟩
  have hblock : ∀ o ∈ s.columns.head?, o ≤ column := by
    intro o ho
    simp [hcolumns] at ho
    omega
  unfold Printer.scalar at h
  unfold textToken Printer.readBack
  cases hstyle : Printer.styleOf text with
  | plain =>
    rw [hstyle] at h
    obtain ⟨hreads, hfits⟩ := Printer.of_styleOf_eq_plain hstyle
    have hwords := Printer.fitsWords_of_fitsPlain hfits
    have hne : text.toList ≠ [] := by
      intro hempty
      rw [String.toList_eq_nil_iff.mp hempty] at hreads
      revert hreads
      decide
    have hcur := h.rest_eq
    rw [List.cons_append] at hcur
    have hkey : ∀ key ∈ s.key, key.required = false := by simp [h.key]
    obtain ⟨column', may, hat, hle'⟩ : ∃ column' may,
        At s (Printer.lineFrom (indent + 1) column' (Printer.runs text.toList) ++
          '\n' :: (List.replicate k ' ' ++ next)) column' may ∧ indent + 1 ≤ column' := by
      obtain hlong | hshort := Printer.plainFrom_runs (indent + 1) (column + 1)
        hwords.head
      · rw [hlong, List.append_assoc] at hcur
        exact ⟨_, _, .of_line (n := 1) h.flow hkey h.version hcur (starts_lineFrom hfits hne), Nat.le_refl _⟩
      · rw [hshort] at hcur
        have hat := At.of_spaces (n := 1) h.flow hkey h.version hcur (starts_lineFrom hfits hne)
        rw [h.column_eq] at hat
        exact ⟨_, _, hat, Nat.le_succ_of_le hle⟩
    exact hat.plain hcolumns hindent hk hle' hfits hne hnext hmark
  | single =>
    rw [hstyle] at h
    obtain ⟨hspecial, hmeet, hquote, -⟩ := Printer.of_styleOf_eq_single hstyle
    have hreads : Quoted.Reads false (Printer.singleFrom (indent + 1) (column + 2) true
        (Printer.runs text.toList) ++ '\n' :: (List.replicate k ' ' ++ next)) _ _ :=
      .singleFrom hspecial hmeet hquote (by simp) _ _
    exact h.quoted hreads hblock hnext
  | double =>
    rw [hstyle] at h
    have hreads : Quoted.Reads true (Printer.doubleFrom (indent + 1) (column + 2) 0 none
        text.toList ++ '\n' :: (List.replicate k ' ' ++ next)) _ _ :=
      .doubleFrom hwidth _ _ _
    exact h.quoted hreads hblock hnext

/-! ### Lists without items, and the end of the text -/

theorem readToken_bracket {keyPending : Bool} (hmay : s.mayStartKey = false)
    (hcolumn : s.cursor.column ≠ 0) :
    s.readToken keyPending '[' rest = .ok { s with
      cursor := s.cursor.next, tokens := s.tokens.push .flowSequence
      flow := { isSequence := true } :: s.flow, mayStartKey := true } := by
  have hsave : s.saveKey = .ok s := by simp [saveKey, hmay]
  unfold readToken
  simp [Cursor.boundary?, hcolumn, openFlow, hsave, take, emit, bind, Except.bind, pure, Except.pure,
    Cursor.advance]

theorem At.openingBracket (h : At s ('[' :: rest) (column + 1) false)
    (hle : ∀ o ∈ s.columns.head?, o ≤ column) :
    ∃ t : Scan, s.step = .ok (t, false) ∧ t.cursor.rest = rest ∧ t.cursor.column ≠ 0 ∧
      t.flow = [{ isSequence := true }] ∧ (∀ key ∈ t.key, key.required = false) ∧ t.version = {} ∧
      t.columns = s.columns ∧ t.tokens = s.tokens.push .flowSequence := by
  obtain ⟨index, line, key, hkey, hstep⟩ := h.step_eq
    (Leaves.mk (List.nil_append _).symm nofun fun o ho => Nat.le_add_right_of_le (hle o ho))
  have hopen := hstep _ (readToken_bracket rfl (Nat.succ_ne_zero _))
  refine ⟨_, hopen, ?_, ?_, rfl, hkey, rfl, rfl, by simp⟩
  · rw [Cursor.next_of_ink rfl (by decide)]
  · rw [Cursor.next_of_ink rfl (by decide)]
    exact Nat.succ_ne_zero _

theorem step_closingBracket (hflow : s.flow = [{ isSequence := true }])
    (hkey : ∀ key ∈ s.key, key.required = false) (hversion : s.version = {})
    (hcur : s.cursor.rest = ']' :: rest) (hcolumn : s.cursor.column ≠ 0) :
    ∃ t : Scan, s.step = .ok (t, false) ∧ t.cursor.rest = rest ∧ t.flow = [] ∧
      (∀ key ∈ t.key, key.required = false) ∧ t.version = {} ∧ t.columns = s.columns ∧
      t.tokens = s.tokens.push .flowSequenceEnd := by
  obtain ⟨cursor, tokens, columns, flow, key, mayStartKey, version⟩ := s
  dsimp only at hflow hkey hversion hcur hcolumn
  subst hflow
  obtain ⟨s, hs⟩ : ∃ s : Scan, s = { cursor, tokens, columns, flow := [{ isSequence := true }], key
                                     mayStartKey, version } := ⟨_, rfl⟩
  rw [← hs]
  have hskipped : s.skipped = s := by
    have hspan : ∀ p : Char → Bool, p ']' = false → cursor.skip p = cursor := by
      intro p hp
      rw [Cursor.skip, Cursor.span_of_head]
      simpa [hcur] using hp
    have hbreak : cursor.break? = none := Cursor.break?_eq_none (by simp [hcur]; decide)
    rw [skipped, skipByteOrderMark_eq_self (by simp [hs, hcur]; decide), skipBlanks]
    simp [hs, hspan, Cursor.skipComment, Cursor.head?, hcur, hbreak]
  obtain ⟨fresh, hfresh, hstale⟩ : ∃ fresh : Option PossibleKey,
      (∀ k ∈ fresh, k.required = false) ∧ s.dropStale = .ok { s with key := fresh } := by
    subst hs
    cases key with
    | none => exact ⟨none, by simp, by simp [dropStale]⟩
    | some key =>
      refine ⟨_, fun k hk => ?_, by simp [dropStale, hkey key rfl]; rfl⟩
      exact hkey k (Option.mem_filter_iff.mp hk).1
  have hinFlow : inFlow { s with key := fresh } = true := by simp [inFlow, hs]
  have htoken : readToken s.keyPending ']' rest { s with key := fresh } =
      .ok { s with key := fresh, cursor := s.cursor.next, flow := [], mayStartKey := false
                   tokens := s.tokens.push .flowSequenceEnd } := by
    unfold readToken
    simp [hs, Cursor.boundary?, hcolumn, closeFlow, dropKey, currentKey, setKey, take, emit, bind,
      Except.bind, pure, Except.pure, Cursor.advance]
  refine ⟨_, step_eq_readToken hskipped hstale (if_pos hinFlow) (by rw [hs]; exact hcur) htoken,
    ?_, rfl, hfresh, ?_, rfl, rfl⟩
  · rw [hs, Cursor.rest_next, hcur, List.tail_cons]
  · rw [hs]
    exact hversion

theorem Behind.emptyList
    (h : Behind s (' ' :: '[' :: ']' :: '\n' :: (List.replicate k ' ' ++ next)) column)
    (hle : ∀ o ∈ s.columns.head?, o ≤ column) (hnext : Starts next) :
    ∃ t : Scan, Steps s t ∧ At t next k true ∧ t.columns = s.columns ∧
      t.tokens = s.tokens ++ [Token.flowSequence, .flowSequenceEnd] := by
  have hat := At.of_spaces (n := 1) h.flow (by simp [h.key]) h.version h.rest_eq
    (by simp [Starts]; decide)
  rw [h.column_eq, h.may] at hat
  obtain ⟨t, hopen, hrest, hcolumn, hflow, hkey, hversion, hcolumns, htokens⟩ := hat.openingBracket hle
  obtain ⟨u, hclose, hrest', hflow', hkey', hversion', hcolumns', htokens'⟩ :=
    step_closingBracket hflow hkey hversion hrest hcolumn
  refine ⟨u, .head hopen ?_ (.single hclose ?_), .of_line (n := 0) hflow' hkey' hversion' hrest' hnext,
    by rw [hcolumns', hcolumns], ?_⟩
  · simp [hrest, h.rest_eq]
  · simp [hrest, hrest']
  · rw [htokens', htokens]
    apply Array.ext'
    simp

/-- It makes no difference that the deeper blocks are closed first. -/
theorem closeAllBlocks_closeBlocks (s : Scan) (column : Nat) :
    (s.closeBlocks column).closeAllBlocks = s.closeAllBlocks := by
  obtain ⟨outer, houter⟩ :=
    List.takeWhile_prefix (p := fun i => decide (column < i)) (l := s.columns)
  have hdrop := congrArg (List.drop (s.columns.takeWhile fun i => decide (column < i)).length) houter
  rw [List.drop_left] at hdrop
  have hmap := congrArg (List.map fun _ => Token.blockEnd) houter
  rw [List.map_append] at hmap
  simp only [closeAllBlocks, closeBlocks, ← hdrop, append_append, hmap]

theorem At.last (h : At s [] column may) :
    ∃ t : Scan, s.step = .ok (t, true) ∧ t.version = {} ∧
      t.tokens = s.tokens ++ (s.columns.map (fun _ => Token.blockEnd) ++ [.streamEnd]) := by
  obtain ⟨index, line, hskipped⟩ := h.skipped_eq
  obtain ⟨key, hkey, hstale⟩ := exists_dropStale (s := { s with
    cursor := { rest := [], index, line, column }, mayStartKey := may }) h.flow h.key
  have hdrop : ∀ t : Scan, t.flow = [] → t.key = key → t.dropKey = .ok { t with key := none } := by
    intro t hflow htkey
    have hany : key.any PossibleKey.required = false := by
      cases key with
      | none => rfl
      | some key => exact hkey key rfl
    simp [dropKey, currentKey, setKey, hflow, htkey, hany]
  refine ⟨_, step_eq_end hskipped hstale (if_neg (by simp [inFlow, h.flow])) rfl
    (hdrop _ h.flow rfl), h.version, ?_⟩
  rw [closeAllBlocks_closeBlocks]
  simp [closeAllBlocks, emit, append_push]

end ModulePins.Yaml.Scan
