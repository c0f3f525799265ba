import ModulePins.Yaml.Cursor
import ModulePins.Yaml.Printer

/-!
# What written scalars read back as

Not every text comes back as it was written. Spaces before a word that gets a line of its own become
one space, a next line U+0085 between single quotes reads as any other line end, and between double
quotes a line that is broken in the middle of a word gains a space. All else is kept.

A text between double quotes is written in pieces, which say what stands on paper and what it stands
for.
-/

namespace ModulePins.Yaml.Printer

/-- What the runs of a plain scalar read back as. A word that is longer than a line goes on the next
one, and whatever spaces stand before it are folded with the break. -/
def squeezed : List (List Char) → List Char
  | [] => []
  | [run] => run
  | run :: word :: rest =>
    (if run.head? == some ' ' && width < word.length then [' '] else run) ++ squeezed (word :: rest)

def breakRead (c : Char) : Char :=
  if isLineEnd c then '\n' else c

/-- What a run of a scalar between single quotes reads back as: breaks are folded. -/
def runRead : List Char → List Char
  | [] => []
  | c :: more => if isInnerBreak c then folded (breakRead c) (more.map breakRead) else c :: more

/-- A piece of a scalar between double quotes. -/
inductive Piece where
  | raw (c : Char)
  | escaped (c : Char)
  /-- A line end that reads as a space. -/
  | fold
  /-- A line end behind a backslash, which reads as nothing. -/
  | joint
  /-- A backslash that keeps the space behind it. -/
  | mark
  deriving DecidableEq, Repr

namespace Piece

def written (indent : Nat) : Piece → List Char
  | raw c => [c]
  | escaped c => escape c
  | fold => newLine indent
  | joint => '\\' :: newLine indent
  | mark => ['\\']

def read : Piece → List Char
  | raw c => [c]
  | escaped c => [c]
  | fold => [' ']
  | joint => []
  | mark => []

end Piece

/-- The pieces of a scalar between double quotes, from a column on. -/
def pieces (indent column run : Nat) (before : Option Char) : List Char → List Piece
  | [] => []
  | c :: rest =>
    let inner := before.isSome && !rest.isEmpty
    let quiet := breaksQuietly (before.getD c) c rest
    if isEscaped c then
      let column := column + (escape c).length
      if inner && width + 1 < column then
        if quiet then .escaped c :: .fold :: pieces indent indent 0 (some c) rest
        else
          let mark := if rest.head? == some ' ' then [Piece.mark] else []
          .escaped c :: .joint :: mark ++ pieces indent (indent + mark.length) 0 (some c) rest
      else .escaped c :: pieces indent column 0 (some c) rest
    else if inner && (c == ' ' || run = 0) && width < column then
      if quiet then
        if c == ' ' then .fold :: pieces indent indent 0 (some c) rest
        else .fold :: .raw c :: pieces indent (indent + 1) 1 (some c) rest
      else
        let mark := if c == ' ' then [Piece.mark] else []
        .joint :: mark ++ .raw c :: pieces indent (indent + mark.length + 1) 1 (some c) rest
    else .raw c :: pieces indent (column + 1) (run + 1) (some c) rest

/-- What a text reads back as when it is written from a column on. -/
def readBack (indent column : Nat) (s : String) : String :=
  let cs := s.toList
  match styleOf s with
  | .plain => String.ofList (squeezed (runs cs))
  | .single => String.ofList ((runs cs).flatMap runRead)
  | .double => String.ofList ((pieces indent (column + 2) 0 none cs).flatMap Piece.read)

/-! ### The conditions of the styles -/

theorem of_styleOf_eq_plain {text : String} (h : styleOf text = .plain) :
    readsAsText text = true ∧ fitsPlain text.toList = true := by
  unfold styleOf at h
  dsimp only at h
  split at h
  next hplain => simpa using hplain
  next =>
    split at h
    · cases h
    split at h <;> cases h

theorem of_styleOf_eq_single {text : String} (h : styleOf text = .single) :
    (∀ c ∈ text.toList, isSpecial c = false) ∧ spacesMeetBreaks text.toList = false ∧
      '\'' ∉ text.toList ∧ '\n' ∉ text.toList := by
  unfold styleOf at h
  dsimp only at h
  split at h
  · cases h
  split at h
  · cases h
  next hquote =>
    split at h
    next hfits =>
      simp only [fitsSingle, Bool.and_eq_true, List.all_eq_true, Bool.not_eq_true'] at hfits
      simp only [List.contains_eq_mem, Bool.or_eq_true, decide_eq_true_eq, not_or] at hquote
      exact ⟨hfits.1, hfits.2, hquote⟩
    next => cases h

/-! ### Text between double quotes is written in pieces -/

variable {indent column run : Nat} {before : Option Char} {c : Char} {cs rest : List Char}

theorem head?_ne_space_of_breaksQuietly {b : Char} (h : breaksQuietly b c rest = true) :
    rest.head? ≠ some ' ' := by
  simp only [breaksQuietly, Bool.and_eq_true, bne_iff_ne] at h
  exact h.1.2

theorem doubleFrom_eq_pieces (indent column run : Nat) (before : Option Char) (cs : List Char) :
    doubleFrom indent column run before cs =
      (pieces indent column run before cs).flatMap (Piece.written indent) ++ ['"'] := by
  induction cs generalizing column run before with
  | nil => rfl
  | cons c rest ih =>
    unfold doubleFrom pieces
    dsimp only
    by_cases hescaped : isEscaped c = true
    · rw [if_pos hescaped, if_pos hescaped]
      split
      · split
        next hquiet =>
          have hhead := head?_ne_space_of_breaksQuietly hquiet
          cases rest with
          | nil => simp [Piece.written, ih]
          | cons d rest =>
            have hd : d ≠ ' ' := by simpa using hhead
            simp [Piece.written, ih, hd]
        next => split <;> simp [Piece.written, ih]
      · simp [Piece.written, ih]
    · rw [if_neg hescaped, if_neg hescaped]
      split
      · split
        · split
          next hspace => simp [Piece.written, ih, eq_of_beq hspace]
          next => simp [Piece.written, ih]
        · split <;> simp [Piece.written, ih]
      · simp [Piece.written, ih]

end ModulePins.Yaml.Printer
