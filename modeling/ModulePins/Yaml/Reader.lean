import ModulePins.Text.Base64
import ModulePins.Yaml.Merge
import ModulePins.Yaml.Number

/-!
# Reading YAML

The value of a document. Collections are filled one layer after the other, so of several faults the
one in the outermost layer counts, and the first of these; keys belong to the layer of their
mapping. A key that is a list becomes a row, other collections cannot be keys, and no key may come
twice in one mapping unless others are merged into it.
-/

namespace ModulePins

namespace Value

/-- The kind of the first part that keeps a value from being a key. -/
def unhashable? : Value → Option String
  | list _ => some "list"
  | set _ => some "set"
  | mapping _ => some "dict"
  | row items => firstUnhashable items
  | _ => none
where
  firstUnhashable : List Value → Option String
    | [] => none
    | item :: rest => (unhashable? item).or (firstUnhashable rest)

end Value

namespace Yaml

/-- A result, or a fault and the layer it was found in. -/
structure Built (α : Type) where
  outcome : Except (Nat × Fault) α

namespace Built

variable {α β : Type}

def ok (a : α) : Built α :=
  ⟨.ok a⟩

def fail (layer : Nat) (fault : Fault) : Built α :=
  ⟨.error (layer, fault)⟩

def atLayer (layer : Nat) (x : Except Fault α) : Built α :=
  ⟨x.mapError fun fault => (layer, fault)⟩

/-- Of two faults the one in the outer layer counts, and of one layer the first. -/
def apply (f : Built (α → β)) (x : Built α) : Built β where
  outcome :=
    match f.outcome, x.outcome with
    | .ok f, .ok a => .ok (f a)
    | .error (i, fault), .error (j, later) =>
      .error (if j < i then (j, later) else (i, fault))
    | .error fault, .ok _ => .error fault
    | .ok _, .error fault => .error fault

instance : Applicative Built where
  pure := ok
  seq f x := apply f (x ())

def andThen (x : Built α) (f : α → Built β) : Built β :=
  match x.outcome with
  | .ok a => f a
  | .error fault => ⟨.error fault⟩

end Built

/-- Words for the truth values where a tag asks for one. -/
def truthWord? (word : String) : Option Bool :=
  if ["yes", "y", "true", "on"].contains word then some true
  else if ["no", "n", "false", "off"].contains word then some false
  else none

def scalarValue (older : Bool) (tag : Tag) (s : String) : Except Fault Value :=
  match tag with
  | .null => .ok .null
  | .text => .ok (.text s)
  | .bool =>
    let word := s.map Char.toLower
    match truthWord? word with
    | some b => .ok (.bool b)
    | none => .error (.unknownWord word)
  | .int => .int <$> Number.readInt older s.toList
  | .float => .float <$> Number.readDouble older s.toList
  | .timestamp =>
    match Timestamp.read? s.toList with
    | some t => t.value
    | none => .error .malformed
  | .binary =>
    if s.toList.all (·.toNat < 0x80) then
      match Text.Base64.decode s.toList with
      | some data => .ok (.bytes data)
      | none => .error .malformed
    else .error .malformed
  | _ => .error .malformed

/-- Whether a tag is that of a collection, which shows its faults one layer further in. -/
def isCollectionTag (tag : Tag) : Bool :=
  [Tag.sequence, .mapping, .set, .orderedMapping, .pairs].contains tag

mutual

/-- The text of a scalar, or of the value under the default key of a mapping. -/
def nodeText? : Node → Option String
  | .scalar _ text => some text
  | .sequence _ _ => none
  | .mapping _ entries _ => defaultText? entries

def defaultText? : List (Node × Node) → Option String
  | [] => none
  | (key, value) :: rest => if key.tag == .defaultKey then nodeText? value else defaultText? rest

end

/-- What a value is as a key. -/
def keyOf (layer : Nat) : Value → Built Value
  | .list items => .ok (.row items)
  | .mapping _ => .fail layer .malformed
  | .set _ => .fail layer .malformed
  | v => .ok v

/-- The entry of a key that comes again counts. -/
def gather (entries : List (Value × Value)) : List (Value × Value) :=
  entries.foldl (fun all (key, value) => Value.setKey all key value) []

/-- Whether two keys are the same; as a key, what is no number is the same as itself. -/
def sameKey : Value → Value → Bool
  | .float .nan, .float .nan => true
  | v, w => v.same w

/-- Complains about a key that cannot be looked up or was seen before. -/
def checkKey (layer : Nat) (repeated : Fault) (seen : List Value) (key : Value) : Built Unit :=
  match key.unhashable? with
  | some kind => .fail layer (.unhashableKey kind)
  | none => if seen.any (sameKey key) then .fail layer repeated else .ok ()

mutual

/-- The value of a node that stands in the given layer. With `within` all its parts belong to this
layer too. -/
def valueOf (older within : Bool) (layer : Nat) : Node → Built Value
  | .scalar tag text =>
    .atLayer (if isCollectionTag tag && !within then layer + 1 else layer)
      (scalarValue older tag text)
  | .sequence tag items =>
    let inner := if within then layer else layer + 1
    match tag with
    | .sequence => .list <$> itemsOf older within inner items
    | .orderedMapping => .mapping <$> singlesOf older within inner true [] items
    | .pairs =>
      (fun entries => .list (entries.map fun (key, value) => .row [key, value])) <$>
        singlesOf older within inner false [] items
    | _ => .fail (if isCollectionTag tag then inner else layer) .malformed
  | .mapping tag entries isMerged =>
    let inner := if within then layer else layer + 1
    match tag with
    | .mapping => (fun entries => .mapping (gather entries)) <$>
        entriesOf older within inner isMerged [] entries
    | .set => (fun entries => .set ((gather entries).map Prod.fst)) <$>
        entriesOf older within inner isMerged [] entries
    | _ =>
      if isCollectionTag tag then .fail inner .malformed
      else
        match defaultText? entries with
        | some text => .atLayer layer (scalarValue older tag text)
        | none => .fail layer .malformed

def itemsOf (older within : Bool) (layer : Nat) : List Node → Built (List Value)
  | [] => .ok []
  | item :: rest =>
    List.cons <$> valueOf older within layer item <*> itemsOf older within layer rest

def singlesOf (older within : Bool) (layer : Nat) (distinct : Bool) (seen : List Value) :
    List Node → Built (List (Value × Value))
  | [] => .ok []
  | .mapping _ [(key, value)] _ :: rest =>
    (valueOf older within layer key).andThen fun key =>
      let check := if distinct then checkKey layer .repeatedEntry seen key else .ok ()
      (fun _ value more => (key, value) :: more) <$> check <*> valueOf older within layer value <*>
        singlesOf older within layer distinct (key :: seen) rest
  | _ => .fail layer .malformed

/-- The entries of a mapping; `seen` are the keys so far. -/
def entriesOf (older within : Bool) (layer : Nat) (isMerged : Bool) (seen : List Value) :
    List (Node × Node) → Built (List (Value × Value))
  | [] => .ok []
  | (key, value) :: rest =>
    let keyValue : Built Value := match key with
      | .scalar .defaultKey text => .ok (.text text)
      | _ => (valueOf older true layer key).andThen (keyOf layer)
    keyValue.andThen fun key =>
      let check := checkKey layer .malformed (if isMerged then [] else seen) key
      (fun value _ more => (key, value) :: more) <$> valueOf older within layer value <*> check <*>
        entriesOf older within layer isMerged (key :: seen) rest

end

/-- Reads the document of a text; a text without one reads as null. -/
def read (cs : List Char) : Except Fault Value := do
  let (node, version) ← Node.ofText cs
  match node with
  | none => return .null
  | some node =>
    let node ← node.merge
    (valueOf version.isOlder false 0 node).outcome.mapError Prod.snd

end Yaml

end ModulePins
