import ModulePins.Proofs.Yaml.Cursor
import ModulePins.Proofs.Yaml.Runs
import ModulePins.Yaml.Scalar.Plain

/-!
# Plain scalars are read as they were written

The words of a plain scalar are read one by one, with the gaps between them. A gap on one line is
kept and one that goes over a line end reads as a single space.
-/

namespace ModulePins.Yaml

namespace Printer

/-- What is written for runs, of which the first starts in a column. -/
def lineFrom (indent column : Nat) : List (List Char) → List Char
  | [] => []
  | run :: rest => run ++ plainFrom indent (column + run.length) rest

/-- Part of a text that may be written plain, after a character of the text. -/
structure FitsWords (before : Char) (cs : List Char) : Prop where
  ink : ∀ c ∈ cs, isSpecial c = false ∧ isInnerBreak c = false
  head : cs.head? ≠ some ' '
  last : cs.getLast? ≠ some ' '
  marks : hasInnerMarks before cs = false

variable {indent column : Nat} {before : Char} {word spaces cs rest : List Char}
variable {more : List (List Char)}

theorem hasInnerMarks_append (h : hasInnerMarks before (word ++ rest) = false) :
    hasInnerMarks (word.getLastD before) rest = false ∧
      (word.getLast? = some ':' → blankNext rest = false) := by
  induction word generalizing before with
  | nil => exact ⟨h, nofun⟩
  | cons c word ih =>
    simp only [List.cons_append, hasInnerMarks, Bool.or_eq_false_iff] at h
    cases word with
    | nil =>
      refine ⟨h.2, fun hc => ?_⟩
      obtain rfl : c = ':' := by simpa using hc
      simpa using h.1.1
    | cons d word =>
      rw [List.getLastD_cons, List.getLast?_cons_cons]
      exact ih h.2

theorem isInk_of_isSpecial_eq_false {c : Char} (h : isSpecial c = false)
    (hbreak : isBreak c = false) : isInk c = true := by
  have hmark : isByteOrderMark c = false := by
    rw [isByteOrderMark, beq_eq_false_iff_ne]
    intro hc
    simp [isSpecial, hc] at h
    subst h
    cases hc
  simp [isInk, hbreak, hmark]

namespace FitsWords

theorem of_mem (h : FitsWords before cs) {c : Char} (hc : c ∈ cs) (hspace : c ≠ ' ') :
    kindOf c = .word ∧ isSpaceOrTab c = false ∧ isInk c = true := by
  obtain ⟨hspecial, hbreak⟩ := h.ink c hc
  have hkind := kindOf_eq_word.mpr ⟨hspace, hbreak⟩
  obtain ⟨hblank, hend⟩ := of_kindOf_eq_word hkind hspecial
  exact ⟨hkind, hblank, isInk_of_isSpecial_eq_false hspecial hend⟩

/-- The words begin with one. It ends before a space or with the text, so its last character is no
colon. -/
theorem exists_word (h : FitsWords before cs) (hne : cs ≠ []) :
    ∃ word rest, cs = word ++ rest ∧ IsRun .word word rest ∧
      (∀ c ∈ word, isSpaceOrTab c = false ∧ isInk c = true) ∧ word.getLast? ≠ some ':' ∧
      ∀ c ∈ rest.head?, c = ' ' := by
  obtain ⟨c, cs, rfl⟩ := List.exists_cons_of_ne_nil hne
  obtain ⟨word, rest, hcs, hword⟩ := exists_isRun c cs
  obtain ⟨hkind, -⟩ := h.of_mem List.mem_cons_self (by simpa using h.head)
  rw [hkind] at hword
  rw [hcs] at h ⊢
  have hspace : ∀ d ∈ rest.head?, d = ' ' := by
    intro d hd
    by_contra hne
    exact hword.ends d hd (h.of_mem (List.mem_append_right _ (List.mem_of_mem_head? hd)) hne).1
  have hover : blankNext rest = true := by
    cases rest with
    | nil => rfl
    | cons d rest => simp [blankNext, hspace d rfl, isSpaceOrTab]
  refine ⟨word, rest, rfl, hword, fun d hd => ?_, fun hlast => ?_, hspace⟩
  · exact (h.of_mem (List.mem_append_left _ hd) (kindOf_eq_word.mp (hword.kindOf_eq d hd)).1).2
  · simpa [hover] using (hasInnerMarks_append h.marks).2 hlast

theorem behind_spaces (h : FitsWords before (word ++ (spaces ++ rest)))
    (hspaces : IsRun .space spaces rest) :
    rest ≠ [] ∧ FitsWords ' ' rest ∧
      ∀ c ∈ rest.head?, c ≠ ' ' ∧ isBreak c = false ∧ c ≠ '#' := by
  obtain ⟨d, hd⟩ : ∃ d, spaces.getLast? = some d := ⟨_, List.getLast?_eq_some_getLast hspaces.ne_nil⟩
  obtain rfl := kindOf_eq_space.mp (hspaces.kindOf_eq d (List.mem_of_mem_getLast? hd))
  have hne : rest ≠ [] := by
    rintro rfl
    apply h.last
    simp [List.getLast?_append, hd]
  have hin : ∀ c ∈ rest, c ∈ word ++ (spaces ++ rest) := fun c hc =>
    List.mem_append_right _ (List.mem_append_right _ hc)
  have hmarks := (hasInnerMarks_append (hasInnerMarks_append h.marks).1).1
  have hhead : ∀ c ∈ rest.head?, c ≠ ' ' := by
    rintro c hc rfl
    exact hspaces.ends _ hc (kindOf_eq_space.mpr rfl)
  have hlast : spaces.getLastD (word.getLastD before) = ' ' := by
    rw [List.getLastD_eq_getLast?, hd]
    rfl
  rw [hlast] at hmarks
  refine ⟨hne, ⟨fun c hc => h.ink c (hin c hc), ?_, ?_, hmarks⟩, ?_⟩
  · intro hc
    exact hhead _ hc rfl
  · obtain ⟨e, he⟩ : ∃ e, rest.getLast? = some e := ⟨_, List.getLast?_eq_some_getLast hne⟩
    have hlast := h.last
    rw [List.getLast?_append, List.getLast?_append, he] at hlast
    rwa [he]
  · intro c hc
    have hc' := hin c (List.mem_of_mem_head? hc)
    obtain ⟨-, -, hink⟩ := h.of_mem hc' (hhead c hc)
    simp only [isInk, Bool.and_eq_true, Bool.not_eq_true'] at hink
    refine ⟨hhead c hc, hink.1, ?_⟩
    rintro rfl
    obtain ⟨e, rest, rfl⟩ := List.exists_cons_of_ne_nil hne
    obtain rfl : e = '#' := by simpa using hc
    simp [hasInnerMarks, blankNext, isSpaceOrTab] at hmarks

end FitsWords

theorem squeezed_spaces (hspaces : IsRun .space spaces cs) :
    squeezed (spaces :: word :: more) =
      (if width < word.length then [' '] else spaces) ++ squeezed (word :: more) := by
  simp [squeezed, hspaces.head?_eq_space]

theorem squeezed_word (hword : word.head? ≠ some ' ') :
    squeezed (word :: more) = word ++ squeezed more := by
  cases more with
  | nil => simp [squeezed]
  | cons run more => simp [squeezed, hword]

/-- A word that is longer than a line goes on the next one, unless it starts one. -/
theorem plainFrom_word (hword : word.head? ≠ some ' ') :
    plainFrom indent column (word :: more) =
      if width < word.length ∧ indent < column then newLine indent ++ lineFrom indent indent (word :: more)
      else lineFrom indent column (word :: more) := by
  have hspace : word ≠ [' '] := by
    rintro rfl
    exact hword rfl
  by_cases h : width < word.length ∧ indent < column
  · simp [plainFrom, lineFrom, hspace, hword, h]
  · rw [if_neg h]
    simp only [plainFrom, lineFrom]
    rw [if_neg (by simp [hspace]), if_neg (by simpa [hword] using h)]

theorem plainFrom_runs (indent column : Nat) (hhead : cs.head? ≠ some ' ') :
    plainFrom indent column (runs cs) = newLine indent ++ lineFrom indent indent (runs cs) ∨
      plainFrom indent column (runs cs) = lineFrom indent column (runs cs) := by
  cases cs with
  | nil => exact .inr rfl
  | cons c cs =>
    obtain ⟨word, rest, hcs, hrun⟩ := exists_isRun c cs
    obtain ⟨d, more, rfl⟩ := List.exists_cons_of_ne_nil hrun.ne_nil
    rw [hcs] at hhead ⊢
    have hword : (d :: more).head? ≠ some ' ' := hhead
    rw [hrun.runs_append, plainFrom_word hword]
    split
    · exact .inl rfl
    · exact .inr rfl

theorem head?_plainFrom_spaces {tail : List Char} (hspaces : IsRun .space spaces cs) :
    ∃ c ∈ (plainFrom indent column (spaces :: more) ++ tail).head?,
      isSpaceOrTab c = true ∨ isLineEnd c = true := by
  have hhead := hspaces.head?_eq_space
  unfold plainFrom
  split
  · exact ⟨'\n', rfl, .inr rfl⟩
  rw [if_neg (by simp [hhead])]
  exact ⟨' ', by simp [hhead], .inl rfl⟩

/-- Where spaces stand before a word, either they are kept, or the word goes on the next line and
they read as one space. -/
theorem plainFrom_spaces (more : List (List Char)) (hspaces : IsRun .space spaces cs)
    (hcolumn : indent ≤ column) (hword : word.head? ≠ some ' ') :
    ∃ between column', plainFrom indent column (spaces :: word :: more) =
        between ++ lineFrom indent column' (word :: more) ∧ indent ≤ column' ∧
      ((∃ n, between = List.replicate n ' ' ++ newLine indent ∧ column' = indent ∧
          squeezed (spaces :: word :: more) = ' ' :: squeezed (word :: more)) ∨
        (between = spaces ∧ column' = column + spaces.length ∧
          squeezed (spaces :: word :: more) = spaces ++ squeezed (word :: more))) := by
  have hlength := List.length_pos_iff.mpr hspaces.ne_nil
  have hhead := hspaces.head?_eq_space
  unfold plainFrom
  rw [squeezed_spaces hspaces]
  by_cases hfold : spaces = [' '] ∧ width < column
  · refine ⟨newLine indent, indent, ?_, Nat.le_refl _, .inl ⟨0, rfl, rfl, ?_⟩⟩
    · rw [if_pos (by simpa using hfold), plainFrom_word hword, if_neg (by omega)]
    · rw [hfold.1]
      split <;> rfl
  · rw [if_neg (by simpa using hfold), if_neg (by simp [hhead]), plainFrom_word hword]
    by_cases hlong : width < word.length
    · rw [if_pos ⟨hlong, by omega⟩, if_pos hlong]
      exact ⟨spaces ++ newLine indent, indent, by simp, Nat.le_refl _,
        .inl ⟨spaces.length, by rw [← hspaces.eq_replicate], rfl, rfl⟩⟩
    · rw [if_neg (by simp [hlong]), if_neg hlong]
      exact ⟨spaces, _, rfl, by omega, .inr ⟨rfl, rfl, rfl⟩⟩

end Printer

namespace Plain

open Printer

variable {word cs rest next : List Char} {cur : Cursor} {n k : Nat}

theorem word_append (hrest : Plain.word false false rest = [])
    (hword : ∀ c ∈ word, isSpaceOrTab c = false ∧ isLineEnd c = false)
    (hlast : word.getLast? ≠ some ':') :
    Plain.word false false (word ++ rest) = word := by
  induction word with
  | nil => exact hrest
  | cons c word ih =>
    obtain ⟨hblank, hend⟩ := hword c List.mem_cons_self
    have htail : Plain.word false false (word ++ rest) = word := by
      refine ih (fun d hd => hword d (List.mem_cons_of_mem _ hd)) fun h => hlast ?_
      cases word with
      | nil => cases h
      | cons d word => rwa [List.getLast?_cons_cons]
    have hcolon : c = ':' → wordOver (word ++ rest) = false := by
      rintro rfl
      cases word with
      | nil => simp at hlast
      | cons d word =>
        have hd := hword d (List.mem_cons_of_mem _ List.mem_cons_self)
        simp [wordOver, overOr, hd]
    rw [List.cons_append, Plain.word]
    by_cases hc : c = ':'
    · simp [hc, hcolon hc, htail]
    · simp [hc, hblank, hend, htail]

theorem gap_of_spaces (h : cur.rest = List.replicate n ' ' ++ rest)
    (hrest : ∀ c ∈ rest.head?, c ≠ ' ' ∧ isBreak c = false) :
    gap cur =
      { text := List.replicate n ' ', crossesLine := false
        after := { rest, index := cur.index + n, line := cur.line, column := cur.column + n } } := by
  rw [gap, Cursor.span_spaces h fun c hc => (hrest c hc).1]
  simp only
  rw [Cursor.break?_eq_none fun c hc => (hrest c hc).2]

theorem emptyLines_of_spaces {read : List Char} {fuel : Nat}
    (h : cur.rest = List.replicate k ' ' ++ next)
    (hnext : ∀ c ∈ next.head?, c ≠ ' ' ∧ isBreak c = false) (hfuel : 0 < fuel) :
    emptyLines read fuel cur =
      (some read,
        { rest := next, index := cur.index + k, line := cur.line, column := cur.column + k }) := by
  obtain ⟨fuel, rfl⟩ : ∃ n, fuel = n + 1 := ⟨fuel - 1, by omega⟩
  rw [emptyLines, Cursor.skip, Cursor.span_spaces h fun c hc => (hnext c hc).1]
  simp only
  rw [Cursor.break?_eq_none fun c hc => (hnext c hc).2]

/-- A single line end reads as a space, whatever spaces stand around it. -/
theorem gap_of_line (h : cur.rest = List.replicate n ' ' ++ '\n' :: (List.replicate k ' ' ++ next))
    (hmark : documentMark? (List.replicate k ' ' ++ next) = none)
    (hnext : ∀ c ∈ next.head?, c ≠ ' ' ∧ isBreak c = false) :
    ∃ after : Cursor, after.rest = next ∧ after.column = k ∧
      gap cur = { text := [' '], crossesLine := true, after } := by
  have hbreak : Cursor.break? { rest := '\n' :: (List.replicate k ' ' ++ next)
                                index := cur.index + n, line := cur.line
                                column := cur.column + n } = _ :=
    Cursor.break?_eq_some rfl (by decide) (by decide)
  rw [Cursor.next_of_feed rfl] at hbreak
  have hlines : ∀ fuel, 0 < fuel →
      emptyLines [] fuel { rest := List.replicate k ' ' ++ next, index := cur.index + n + 1
                           line := cur.line + 1, column := 0 } = _ :=
    fun _ => emptyLines_of_spaces rfl hnext
  refine ⟨{ rest := next, index := cur.index + n + 1 + k, line := cur.line + 1, column := 0 + k },
    rfl, Nat.zero_add k, ?_⟩
  rw [gap, Cursor.span_spaces h (by simp)]
  simp only [hbreak, hmark, hlines _ (Nat.succ_pos _)]
  rfl

variable {indent column reach fuel : Nat} {before : Char} {text gapText spaces : List Char}
variable {endsLine : Bool}

theorem head?_lineFrom (hne : cs ≠ []) :
    (lineFrom indent column (runs cs) ++ next).head? = cs.head? := by
  obtain ⟨c, cs, rfl⟩ := List.exists_cons_of_ne_nil hne
  obtain ⟨run, rest, hcs, hrun⟩ := exists_isRun c cs
  obtain ⟨d, more, rfl⟩ := List.exists_cons_of_ne_nil hrun.ne_nil
  rw [hcs, hrun.runs_append]
  rfl

theorem gap_between (hspaces : IsRun .space spaces cs) (hne : cs ≠ [])
    (hhead : ∀ c ∈ cs.head?, c ≠ ' ' ∧ isBreak c = false) (hindent : 0 < indent)
    (hle : indent ≤ column) (hcolumn : cur.column = column)
    (hcur : cur.rest = plainFrom indent column (spaces :: runs cs) ++ next) :
    (gap cur).text ≠ [] ∧ indent ≤ (gap cur).after.column ∧
      (gap cur).after.rest.length ≤ cur.rest.length ∧
      (gap cur).after.rest = lineFrom indent (gap cur).after.column (runs cs) ++ next ∧
      squeezed (spaces :: runs cs) = (gap cur).text ++ squeezed (runs cs) := by
  obtain ⟨c, cs, rfl⟩ := List.exists_cons_of_ne_nil hne
  obtain ⟨word, rest, hcs, hrun⟩ := exists_isRun c cs
  have hword : word.head? ≠ some ' ' := by
    obtain ⟨d, more, rfl⟩ := List.exists_cons_of_ne_nil hrun.ne_nil
    obtain rfl := (List.cons.inj hcs).1
    simpa using (hhead c rfl).1
  have hline : ∀ column, ∀ d ∈ (lineFrom indent column (runs (c :: cs)) ++ next).head?,
      d ≠ ' ' ∧ isBreak d = false := by
    intro column d hd
    rw [head?_lineFrom hne] at hd
    exact hhead d hd
  have hruns : runs (c :: cs) = word :: runs rest := by rw [hcs, hrun.runs_append]
  rw [hruns] at hcur hline ⊢
  obtain ⟨between, column', hplain, hle', hgap⟩ :=
    plainFrom_spaces (runs rest) hspaces hle hword
  rw [hplain, List.append_assoc] at hcur
  obtain ⟨n, rfl, rfl, hsqueezed⟩ | ⟨rfl, rfl, hsqueezed⟩ := hgap
  · have hmark : documentMark? (List.replicate column' ' ' ++
        (lineFrom column' column' (word :: runs rest) ++ next)) = none :=
      documentMark?_spaces hindent _
    rw [List.append_assoc] at hcur
    obtain ⟨after, hafter, hafterColumn, hread⟩ := gap_of_line hcur hmark (hline _)
    rw [hread, hcur]
    refine ⟨nofun, hafterColumn.ge, ?_, by rw [hafter, hafterColumn], hsqueezed⟩
    simp [hafter]
    omega
  · have hcur := hcur.trans (congrArg (· ++ _) hspaces.eq_replicate)
    rw [gap_of_spaces hcur (hline _), hcolumn]
    refine ⟨?_, hle', ?_, rfl, ?_⟩
    · rw [← hspaces.eq_replicate]
      exact hspaces.ne_nil
    · rw [hcur]
      simp only [List.length_append]
      exact Nat.le_add_left _ _
    · rw [← hspaces.eq_replicate]
      exact hsqueezed

/-- A word is read up to the blank behind it, and the gap decides whether the scalar goes on. -/
theorem readFrom_word (hcur : cur.rest = word ++ rest) (hne : word ≠ [])
    (hword : ∀ c ∈ word, isSpaceOrTab c = false ∧ isInk c = true) (hlast : word.getLast? ≠ some ':')
    (hrest : ∃ c ∈ rest.head?, isSpaceOrTab c = true ∨ isLineEnd c = true) {g : Gap}
    (hgap : gap (cur.advance word.length) = g) :
    readFrom false false reach text gapText endsLine (fuel + 1) cur =
      if g.text.isEmpty || g.after.head? == some '#' || decide (g.after.column < reach) then
        { text := text ++ gapText ++ word, endsLine := g.crossesLine, after := g.after }
      else readFrom false false reach (text ++ gapText ++ word) g.text g.crossesLine fuel g.after := by
  have hover : Plain.word false false rest = [] := by
    obtain ⟨c, hc, hblank⟩ := hrest
    cases rest with
    | nil => cases hc
    | cons d rest =>
      obtain rfl : d = c := by simpa using hc
      have hcolon : d ≠ ':' := by
        rintro rfl
        simp [isSpaceOrTab, isLineEnd] at hblank
      simp [Plain.word, hcolon, hblank]
  have hpart : Plain.word false false cur.rest = word := by
    rw [hcur]
    refine word_append hover (fun c hc => ⟨(hword c hc).1, ?_⟩) hlast
    have hink := (hword c hc).2
    simp only [isInk, isBreak, Bool.and_eq_true, Bool.not_eq_true', Bool.or_eq_false_iff] at hink
    exact hink.1.1
  rw [readFrom, hpart, hgap]
  simp [hne]

/-- The words of a plain scalar are read up to the next line that is indented less than they have to
be. -/
theorem readFrom_lineFrom (hreach : reach ≤ indent) (hindent : 0 < indent) (hk : k < reach)
    (hmark : documentMark? (List.replicate k ' ' ++ next) = none)
    (hnext : ∀ c ∈ next.head?, c ≠ ' ' ∧ isBreak c = false)
    (hfits : FitsWords before cs) (hne : cs ≠ [])
    (hcur : cur.rest = lineFrom indent column (runs cs) ++ '\n' :: (List.replicate k ' ' ++ next))
    (hcolumn : cur.column = column) (hle : indent ≤ column) (hfuel : cur.rest.length < fuel) :
    ∃ after : Cursor, after.rest = next ∧ after.column = k ∧
      readFrom false false reach text gapText endsLine fuel cur =
        { text := text ++ gapText ++ squeezed (runs cs), endsLine := true, after } := by
  -- one word at a time: what is left behind a word and the gap after it is shorter
  induction hlength : cs.length using Nat.strongRecOn
    generalizing cs cur column fuel text gapText endsLine before with
  | ind n ih =>
    subst hlength
    obtain ⟨fuel, rfl⟩ : ∃ n, fuel = n + 1 := ⟨fuel - 1, by omega⟩
    obtain ⟨word, rest, rfl, hword, hink, hlast, hspace⟩ := hfits.exists_word hne
    rw [hword.runs_append] at hcur ⊢
    rw [lineFrom, List.append_assoc] at hcur
    have hbehind := Cursor.advance_of_ink hcur fun d hd => (hink d hd).2
    have hbehindColumn : (cur.advance word.length).column = column + word.length := by
      rw [hbehind, hcolumn]
    cases rest with
    | nil =>
      have hline : (cur.advance word.length).rest =
          List.replicate 0 ' ' ++ '\n' :: (List.replicate k ' ' ++ next) := by
        rw [hbehind]
        rfl
      obtain ⟨after, hafter, hafterColumn, hgap⟩ := gap_of_line hline hmark hnext
      refine ⟨after, hafter, hafterColumn, ?_⟩
      rw [readFrom_word hcur hword.ne_nil hink hlast ⟨'\n', rfl, .inr rfl⟩ hgap,
        if_pos (by simp [hafterColumn, hk])]
      simp [squeezed, runs]
    | cons d rest =>
      obtain ⟨spaces, more, hrest, hspaces⟩ := exists_isRun d rest
      obtain rfl := hspace d rfl
      rw [kindOf_eq_space.mpr rfl] at hspaces
      rw [hrest] at hfits hcur hbehind ih ⊢
      obtain ⟨hmore, hfitsMore, hhead⟩ := hfits.behind_spaces hspaces
      rw [hspaces.runs_append] at hcur hbehind ⊢
      obtain ⟨hgap, hleGap, hlength, hafter, hsqueezed⟩ := gap_between hspaces hmore
        (fun c hc => ⟨(hhead c hc).1, (hhead c hc).2.1⟩) hindent (Nat.le_add_right_of_le hle)
        hbehindColumn (by rw [hbehind])
      have hpos := List.length_pos_iff.mpr hword.ne_nil
      rw [hcur, List.length_append] at hfuel
      have hnumber : (gap (cur.advance word.length)).after.head? ≠ some '#' := by
        rw [Cursor.head?, hafter, head?_lineFrom hmore]
        intro h
        exact (hhead _ h).2.2 rfl
      have hfar := Nat.not_lt.mpr (hreach.trans hleGap)
      have hwordHead : word.head? ≠ some ' ' := by
        intro h
        have hin := List.mem_of_mem_head? h
        exact (kindOf_eq_word.mp (hword.kindOf_eq _ hin)).1 rfl
      have hlengthMore : more.length < (word ++ (spaces ++ more)).length := by
        simp only [List.length_append]
        omega
      have hlengthGap : (gap (cur.advance word.length)).after.rest.length < fuel :=
        hlength.trans_lt (by rw [hbehind]; dsimp only; omega)
      obtain ⟨after, hdone, hdoneColumn, hread⟩ : ∃ after : Cursor, after.rest = next ∧ after.column = k ∧
          readFrom false false reach (text ++ gapText ++ word) (gap (cur.advance word.length)).text
            (gap (cur.advance word.length)).crossesLine fuel (gap (cur.advance word.length)).after = _ :=
        ih more.length hlengthMore hfitsMore hmore hafter rfl hleGap hlengthGap rfl
      refine ⟨after, hdone, hdoneColumn, ?_⟩
      rw [readFrom_word hcur hword.ne_nil hink hlast (head?_plainFrom_spaces hspaces) rfl,
        if_neg (by simp [hgap, hnumber, hfar]), hread, squeezed_word hwordHead, hsqueezed]
      simp [List.append_assoc]

theorem read_lineFrom (hreach : reach ≤ indent) (hindent : 0 < indent) (hk : k < reach)
    (hmark : documentMark? (List.replicate k ' ' ++ next) = none)
    (hnext : ∀ c ∈ next.head?, c ≠ ' ' ∧ isBreak c = false)
    (hfits : FitsWords before cs) (hne : cs ≠ [])
    (hcur : cur.rest = lineFrom indent cur.column (runs cs) ++ '\n' :: (List.replicate k ' ' ++ next))
    (hle : indent ≤ cur.column) :
    ∃ after : Cursor, after.rest = next ∧ after.column = k ∧
      read false false reach cur = { text := squeezed (runs cs), endsLine := true, after } := by
  exact readFrom_lineFrom hreach hindent hk hmark hnext hfits hne hcur rfl hle (Nat.lt_succ_self _)

theorem read_name {name : List Char} (hcur : cur.rest = name ++ ':' :: rest) (hne : name ≠ [])
    (hname : ∀ c ∈ name, isSpaceOrTab c = false ∧ isInk c = true) (hlast : name.getLast? ≠ some ':')
    (hover : wordOver rest = true) :
    read false false reach cur =
      { text := name, endsLine := false
        after := { rest := ':' :: rest, index := cur.index + name.length, line := cur.line
                   column := cur.column + name.length } } := by
  have hpart : Plain.word false false cur.rest = name := by
    rw [hcur]
    refine word_append (by simp [Plain.word, hover]) (fun c hc => ⟨(hname c hc).1, ?_⟩) hlast
    have hink := (hname c hc).2
    simp only [isInk, isBreak, Bool.and_eq_true, Bool.not_eq_true', Bool.or_eq_false_iff] at hink
    exact hink.1.1
  have hadvance := Cursor.advance_of_ink hcur fun c hc => (hname c hc).2
  have hline : (cur.advance name.length).rest = List.replicate 0 ' ' ++ ':' :: rest := by
    rw [hadvance]
    rfl
  have hgap := gap_of_spaces hline (by simp; decide)
  rw [hadvance] at hgap
  rw [read, readFrom, hpart, hadvance, hgap]
  simp [hne]

end Plain

namespace Printer

variable {c : Char} {cs rest : List Char}

theorem of_hasMarks_eq_false (h : hasMarks (c :: rest) = false) :
    c ∉ "#,[]\x7b\x7d&*!|>\x27\"%@".toList ∧ c.toNat ≠ 0x60 ∧
      (c = '?' ∨ c = ':' ∨ c = '-' → blankNext rest = false) ∧ hasInnerMarks c rest = false := by
  simp only [hasMarks, Bool.or_eq_false_iff, Bool.and_eq_false_iff, List.contains_eq_mem,
    decide_eq_false_iff_not, beq_eq_false_iff_ne] at h
  refine ⟨h.1.1.1.2, h.1.1.2, fun hc => ?_, h.2⟩
  obtain ⟨⟨hquestion, hcolon⟩, hminus⟩ | hblank := h.1.2
  · grind
  · exact hblank

/-- The condition for writing a text plain says how its words may be read. -/
theorem fitsWords_of_fitsPlain (h : fitsPlain cs = true) : FitsWords 'x' cs := by
  simp only [fitsPlain, Bool.and_eq_true, List.all_eq_true, Bool.not_eq_true', bne_iff_ne] at h
  obtain ⟨⟨⟨hink, hhead⟩, hlast⟩, hmarks⟩ := h
  refine ⟨fun c hc => by simpa using hink c hc, hhead, hlast, ?_⟩
  cases cs with
  | nil => rfl
  | cons c rest =>
    obtain ⟨-, -, hfirst, hinner⟩ := of_hasMarks_eq_false hmarks
    have hx : blankNext ['x'] = false := by decide
    simp only [hasInnerMarks, hx, hinner, Bool.and_false, Bool.or_false, Bool.and_eq_false_iff,
      beq_eq_false_iff_ne]
    by_cases hc : c = ':'
    · exact .inr (hfirst (.inr (.inl hc)))
    · exact .inl hc

end Printer

end ModulePins.Yaml
