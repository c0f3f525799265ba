import ModulePins.Proofs.Lockfile.Tokens
import ModulePins.Proofs.Yaml.Thinned
import ModulePins.Yaml.Node

/-!
# Parsing a written lockfile

The tokens of a written lockfile make up one mapping, whose values are texts and lists of mappings
of texts. No anchors, aliases or tags are met on the way.
-/

namespace ModulePins.Yaml.Node

/-- A reading that starts at some tokens and leaves others. No anchors are noted. -/
def Reads {α : Type} (read : Read α) (tokens : List Token) (a : α) (rest : List Token) : Prop :=
  read.run { tokens } = .ok (a, { tokens := rest })

variable {α β : Type} {read : Read α} {a : α} {b : β} {d : Dialect} {t : Token}
  {tokens rest rest' : List Token} {fuel : Nat} {name text : String} {isPlain : Bool}

namespace Reads

theorem pure (a : α) (tokens : List Token) : Reads (pure a) tokens a tokens := rfl

theorem bind {f : α → Read β} (h : Reads read tokens a rest) (h' : Reads (f a) rest b rest') :
    Reads (read >>= f) tokens b rest' := by
  unfold Reads at h h' ⊢
  rw [StateT.run_bind, h]
  exact h'

theorem map {f : α → β} (h : Reads read tokens a rest) : Reads (f <$> read) tokens (f a) rest := by
  unfold Reads at h ⊢
  rw [StateT.run_map, h]
  rfl

theorem peek : Reads peek (t :: rest) t (t :: rest) := rfl

theorem drop : Reads drop (t :: rest) () rest := rfl

theorem accept : Reads (accept t) (t :: rest) true rest := by
  refine peek.bind ?_
  rw [if_pos (beq_self_eq_true t)]
  exact drop.bind (.pure ..)

theorem accept_not {u : Token} (h : t ≠ u) :
    Reads (Node.accept u) (t :: rest) false (t :: rest) := by
  refine peek.bind ?_
  rw [if_neg (by simpa using h)]
  exact .pure ..

theorem comesBefore (stop : List Token) :
    Reads (comesBefore stop) (t :: rest) (stop.contains t) (t :: rest) :=
  peek.bind (.pure ..)

theorem makeCollection {read : Read Node} {node : Node} (h : Reads read tokens node rest) :
    Reads (makeCollection none read) tokens node rest :=
  Reads.bind (.pure () tokens) (h.bind (Reads.bind (.pure () rest) (.pure ..)))

theorem properties (h : ∀ name, t ≠ .anchor name) (h' : ∀ handle name, t ≠ .tag handle name) :
    Reads (properties d) (t :: rest) (none, none) (t :: rest) := by
  refine peek.bind ?_
  split
  next name => exact absurd rfl (h name)
  next handle name => exact absurd rfl (h' handle name)
  next => exact .pure ..

theorem scalar (hversion : d.version = {})
    (htext : isPlain = true → Tag.ofPlain {} text = .ok .text)
    (inBlock unbracketed : Bool) (fuel : Nat) :
    Reads (readNode d inBlock unbracketed (fuel + 1)) (.scalar isPlain text :: rest)
      (.scalar .text text) rest := by
  have htag : scalarTag d none isPlain text = .ok .text := by
    cases isPlain with
    | true => simpa [scalarTag, hversion] using htext rfl
    | false => rfl
  unfold readNode
  refine peek.bind ?_
  dsimp only
  refine (properties (by simp) (by simp)).bind (peek.bind ?_)
  dsimp only
  refine drop.bind ?_
  unfold Reads makeScalar
  rw [htag]
  rfl

theorem readUnless {stop : List Token} {inBlock unbracketed : Bool} {node : Node}
    (hstop : stop.contains t = false)
    (h : Reads (readNode d inBlock unbracketed fuel) (t :: rest) node rest') :
    Reads (Node.readUnless d stop inBlock unbracketed (fuel + 1)) (t :: rest) node rest' := by
  unfold Node.readUnless
  refine (comesBefore stop).bind ?_
  rw [hstop]
  exact h

end Reads

/-! ### Entries, items and lists -/

abbrev mappingStops : List Token :=
  [.key, .value, .blockEnd]

theorem Reads.entry {value : Node} {entries result : List (Node × Node)} (hversion : d.version = {})
    (hname : Tag.ofPlain {} name = .ok .text)
    (hvalue : Reads (Node.readUnless d mappingStops true true (fuel + 2)) tokens value rest)
    (hmore : Reads (readBlockEntries d ((.scalar .text name, value) :: entries) (fuel + 2)) rest result rest') :
    Reads (readBlockEntries d entries (fuel + 3)) (.key :: .scalar true name :: .value :: tokens) result
      rest' := by
  unfold readBlockEntries
  refine (accept_not (by decide)).bind ?_
  rw [if_neg Bool.false_ne_true]
  refine accept.bind (peek.bind ?_)
  dsimp only
  rw [if_pos rfl]
  refine Reads.bind (.readUnless rfl (.scalar hversion (fun _ => hname) true true fuel)) ?_
  refine accept.bind ?_
  rw [if_pos rfl]
  exact hvalue.bind hmore

theorem Reads.endOfEntries (entries : List (Node × Node)) :
    Reads (readBlockEntries d entries (fuel + 1)) (.blockEnd :: rest) entries.reverse rest := by
  unfold readBlockEntries
  refine accept.bind ?_
  rw [if_pos rfl]
  exact .pure ..

theorem Reads.mapping {entries : List (Node × Node)} (unbracketed : Bool)
    (h : Reads (readBlockEntries d [] fuel) tokens entries rest) :
    Reads (readNode d true unbracketed (fuel + 1)) (.blockMapping :: tokens)
      (blankMapping .mapping entries) rest := by
  unfold readNode
  refine peek.bind ?_
  dsimp only
  refine (properties (by simp) (by simp)).bind (peek.bind ?_)
  dsimp only
  rw [if_pos rfl]
  exact drop.bind (.makeCollection h.map)

theorem Reads.item {item : Node} {items result : List Node}
    (hstop : t ≠ .item ∧ t ≠ .key ∧ t ≠ .value ∧ t ≠ .blockEnd)
    (hitem : Reads (readNode d true false fuel) (t :: tokens) item rest)
    (hmore : Reads (readLooseItems d (item :: items) (fuel + 1)) rest result rest') :
    Reads (readLooseItems d items (fuel + 2)) (.item :: t :: tokens) result rest' := by
  unfold readLooseItems
  refine accept.bind ?_
  rw [if_pos rfl]
  refine Reads.bind (.readUnless ?_ hitem) hmore
  simp [hstop]

theorem Reads.endOfItems (items : List Node) (h : t ≠ .item) :
    Reads (readLooseItems d items (fuel + 1)) (t :: rest) items.reverse (t :: rest) := by
  unfold readLooseItems
  refine (accept_not h).bind ?_
  rw [if_neg Bool.false_ne_true]
  exact .pure ..

theorem Reads.sequence {items : List Node}
    (h : Reads (readLooseItems d [] fuel) (.item :: tokens) items rest) :
    Reads (readNode d true true (fuel + 1)) (.item :: tokens) (.sequence .sequence items) rest := by
  unfold readNode
  refine peek.bind ?_
  dsimp only
  refine (properties (by simp) (by simp)).bind (peek.bind ?_)
  dsimp only
  rw [if_pos rfl]
  exact .makeCollection h.map

theorem Reads.emptySequence :
    Reads (readNode d true true (fuel + 2)) (.flowSequence :: .flowSequenceEnd :: rest)
      (.sequence .sequence []) rest := by
  have hitems : Reads (readFlowItems d [] (fuel + 1)) (.flowSequenceEnd :: rest) [] rest := by
    unfold readFlowItems
    refine accept.bind ?_
    rw [if_pos rfl]
    exact .pure ..
  unfold readNode
  refine peek.bind ?_
  dsimp only
  refine (properties (by simp) (by simp)).bind (peek.bind ?_)
  dsimp only
  exact drop.bind (.makeCollection hitems.map)

/-! ### The lines of a lockfile -/

open Scan

def entryNodes (column : Nat) (entry : String × String) : Node × Node :=
  (.scalar .text entry.1, .scalar .text
    (Printer.readBack (column + 2) (column + entry.1.toList.length + 1) entry.2))

def itemNode (item : List (String × String)) : Node :=
  blankMapping .mapping (item.map (entryNodes 2))

def listNode (items : List (List (String × String))) : Node :=
  .sequence .sequence (items.map itemNode)

theorem Reads.textValue (hversion : d.version = {}) (indent column : Nat) (text : String) :
    Reads (Node.readUnless d mappingStops true true (fuel + 2)) (textToken indent column text :: rest)
      (.scalar .text (Printer.readBack indent column text)) rest :=
  .readUnless rfl (.scalar hversion (fun hplain => Printer.ofPlain_readBack (eq_of_beq hplain)) ..)

theorem Reads.entryLine {column : Nat} {entry : String × String}
    {entries result : List (Node × Node)} (hversion : d.version = {}) (hname : IsName entry.1)
    (hmore : Reads (readBlockEntries d (entryNodes column entry :: entries) (fuel + 2)) rest result rest') :
    Reads (readBlockEntries d entries (fuel + 3)) (entryTokens column entry ++ rest) result rest' :=
  .entry hversion hname.ofPlain (.textValue hversion ..) hmore

theorem Reads.entryLines {column : Nat} {lines : List (String × String)}
    {entries : List (Node × Node)}
    (hversion : d.version = {}) (hnames : ∀ e ∈ lines, IsName e.1)
    (hfuel : lines.length + 3 ≤ fuel) :
    Reads (readBlockEntries d entries fuel)
      (lines.flatMap (entryTokens column) ++ .blockEnd :: rest)
      (entries.reverse ++ lines.map (entryNodes column)) rest := by
  induction lines generalizing entries fuel with
  | nil =>
    obtain ⟨fuel, rfl⟩ : ∃ n, fuel = n + 1 := ⟨fuel - 1, by omega⟩
    rw [List.map_nil, List.append_nil]
    exact .endOfEntries entries
  | cons line lines ih =>
    rw [List.length_cons] at hfuel
    obtain ⟨fuel, rfl⟩ : ∃ n, fuel = n + 3 := ⟨fuel - 3, by omega⟩
    have hmore : Reads (readBlockEntries d (entryNodes column line :: entries) (fuel + 2)) _ _ rest :=
      ih (fun e he => hnames e (List.mem_cons_of_mem _ he)) (by omega)
    have hline := Reads.entryLine hversion (hnames line List.mem_cons_self) hmore
    simpa using hline

theorem Reads.items {items : List (List (String × String))} {nodes : List Node} {n : Nat}
    (hversion : d.version = {}) (hnames : ∀ item ∈ items, ∀ e ∈ item, IsName e.1)
    (hlength : ∀ item ∈ items, item.length ≤ n) (ht : t ≠ .item)
    (hfuel : items.length + n + 6 ≤ fuel) :
    Reads (readLooseItems d nodes fuel) (items.flatMap itemTokens ++ t :: rest)
      (nodes.reverse ++ items.map itemNode) (t :: rest) := by
  induction items generalizing nodes fuel with
  | nil =>
    obtain ⟨fuel, rfl⟩ : ∃ n, fuel = n + 1 := ⟨fuel - 1, by omega⟩
    rw [List.map_nil, List.append_nil]
    exact .endOfItems nodes ht
  | cons item items ih =>
    rw [List.length_cons] at hfuel
    obtain ⟨fuel, rfl⟩ : ∃ n, fuel = n + 3 := ⟨fuel - 3, by omega⟩
    have hmore : Reads (readLooseItems d (itemNode item :: nodes) (fuel + 2)) _ _ (t :: rest) :=
      ih (fun i hi => hnames i (List.mem_cons_of_mem _ hi))
        (fun i hi => hlength i (List.mem_cons_of_mem _ hi)) (by omega)
    have hentries : Reads (readBlockEntries d [] fuel) (item.flatMap (entryTokens 2) ++ .blockEnd ::
        (items.flatMap itemTokens ++ t :: rest)) _ _ :=
      .entryLines hversion (hnames item List.mem_cons_self)
        (by have := hlength item List.mem_cons_self; omega)
    have hitem := Reads.item (by simp) (.mapping false hentries) hmore
    simpa [itemTokens, itemNode] using hitem

theorem Reads.list {items : List (List (String × String))} {n : Nat} (hversion : d.version = {})
    (hnames : ∀ item ∈ items, ∀ e ∈ item, IsName e.1) (hlength : ∀ item ∈ items, item.length ≤ n)
    (ht : t ≠ .item) (hfuel : items.length + n + 8 ≤ fuel) :
    Reads (Node.readUnless d mappingStops true true fuel)
      ((if items.isEmpty then [.flowSequence, .flowSequenceEnd] else items.flatMap itemTokens) ++ t :: rest)
      (listNode items) (t :: rest) := by
  obtain ⟨fuel, rfl⟩ : ∃ n, fuel = n + 3 := ⟨fuel - 3, by omega⟩
  cases items with
  | nil => exact .readUnless rfl .emptySequence
  | cons item items =>
    have hitems : Reads (readLooseItems d [] (fuel + 1))
        ((item :: items).flatMap itemTokens ++ t :: rest) _ _ :=
      .items hversion hnames hlength ht (by omega)
    exact .readUnless rfl (.sequence hitems)

end ModulePins.Yaml.Node

namespace ModulePins.Lockfile

open Yaml Yaml.Scan Yaml.Node

def node (now : Instant) (lock : Lockfile) : Node :=
  blankMapping .mapping [entryNodes 0 ("version", lock.version),
    entryNodes 0 ("generated", (lock.generated.getD now).text),
    (.scalar .text "modules", listNode (lock.modules.map LockedModule.entries)),
    (.scalar .text "files", listNode (lock.files.map LockedFile.entries))]

theorem length_items_le (items : List (List (String × String))) :
    items.length ≤ (items.flatMap itemTokens).length := by
  induction items with
  | nil => exact Nat.le_refl _
  | cons item items ih =>
    rw [List.flatMap_cons, List.length_append, List.length_cons]
    simp only [itemTokens, List.length_cons]
    omega

theorem length_listing_le (name : String) (items : List (List (String × String))) :
    items.length + 3 ≤ (listingTokens name items).length := by
  have hlength := length_items_le items
  unfold listingTokens
  split
  next hempty => simp [List.isEmpty_iff.mp hempty]
  next =>
    rw [List.length_append, Nat.add_comm]
    exact Nat.add_le_add_left hlength 3

theorem length_tokens_le (now : Instant) (lock : Lockfile) :
    lock.modules.length + lock.files.length + 17 ≤ (tokens now lock).length := by
  have hmodules := length_listing_le "modules" (lock.modules.map LockedModule.entries)
  have hfiles := length_listing_le "files" (lock.files.map LockedFile.entries)
  rw [List.length_map] at hmodules hfiles
  simp only [tokens, entryTokens, List.length_cons, List.length_append, List.length_nil]
  omega

theorem reads_node (now : Instant) (lock : Lockfile) {d : Dialect} (hversion : d.version = {})
    {fuel : Nat} (hfuel : lock.modules.length + lock.files.length + 16 ≤ fuel) :
    Reads (readNode d true false fuel) (tokens now lock) (node now lock) [.streamEnd] := by
  obtain ⟨fuel, rfl⟩ : ∃ n, fuel = n + 7 := ⟨fuel - 7, by omega⟩
  have hname : ∀ name ∈ ["version", "generated", "modules", "files"], IsName name := fun name h =>
    isName_of_mem (by simp at h ⊢; tauto)
  have hlengths : ∀ item ∈ lock.modules.map LockedModule.entries, item.length ≤ 3 := by
    simp [LockedModule.entries]
  have hlengths' : ∀ item ∈ lock.files.map LockedFile.entries, item.length ≤ 3 := by
    simp [LockedFile.entries]
  have hmodules : Reads (Node.readUnless d mappingStops true true (fuel + 3)) _
      (listNode (lock.modules.map LockedModule.entries))
      (listingTokens "files" (lock.files.map LockedFile.entries) ++ [.blockEnd, .streamEnd]) :=
    .list hversion isName_modules hlengths (by simp) (by rw [List.length_map]; omega)
  have hfiles : Reads (Node.readUnless d mappingStops true true (fuel + 2)) _
      (listNode (lock.files.map LockedFile.entries)) [.blockEnd, .streamEnd] :=
    .list hversion isName_files hlengths' (by simp) (by rw [List.length_map]; omega)
  have hentries : Reads (readBlockEntries d [] (fuel + 6))
      (entryTokens 0 ("version", lock.version) ++ (entryTokens 0 ("generated", (lock.generated.getD now).text) ++
        (listingTokens "modules" (lock.modules.map LockedModule.entries) ++
          (listingTokens "files" (lock.files.map LockedFile.entries) ++ [.blockEnd, .streamEnd])))) _ _ :=
    .entryLine hversion (hname "version" (by simp)) <|
      .entryLine hversion (hname "generated" (by simp)) <|
        .entry hversion (hname "modules" (by simp)).ofPlain hmodules <|
          .entry hversion (hname "files" (by simp)).ofPlain hfiles (.endOfEntries _)
  have htokens : tokens now lock = .blockMapping :: (entryTokens 0 ("version", lock.version) ++
      (entryTokens 0 ("generated", (lock.generated.getD now).text) ++
        (listingTokens "modules" (lock.modules.map LockedModule.entries) ++
          (listingTokens "files" (lock.files.map LockedFile.entries) ++ [.blockEnd, .streamEnd])))) := by
    simp [tokens]
  rw [htokens]
  exact .mapping false hentries

/-- The node of the document in a written lockfile. -/
theorem ofText_text (now : Instant) (lock : Lockfile) :
    Node.ofText (text now lock).toList = .ok (some (node now lock), {}) := by
  have hfuel := length_tokens_le now lock
  have hnode : Reads (readNode { version := {} } true false (3 * (tokens now lock).length + 3))
      (tokens now lock) (node now lock) [.streamEnd] :=
    reads_node now lock rfl (by omega)
  have hread : Reads (readText { version := {} } (3 * (tokens now lock).length + 3)) (tokens now lock)
      (some (node now lock)) [.streamEnd] := by
    unfold readText
    refine Reads.peek.bind ?_
    dsimp only
    refine hnode.bind ((Reads.accept_not (by decide)).bind (Reads.peek.bind ?_))
    exact .pure ..
  unfold Reads at hread
  unfold Node.ofText
  rw [tokens_text]
  simp only [bind, Except.bind, hread]
  rfl

end ModulePins.Lockfile
