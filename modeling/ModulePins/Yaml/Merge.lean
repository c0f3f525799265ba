import ModulePins.Yaml.Node

/-!
# Merged mappings

A mapping takes over the entries of the mappings that stand under its merge key, of the last one in
a list first. Taken over entries come before its own, which may replace them. A second merge key is
refused, unless nothing came of the first.
-/

namespace ModulePins.Yaml.Node

/-- The entries of a mapping, or of all mappings in a list from the last to the first. -/
def sources : Node → Except Fault (List (Node × Node))
  | mapping _ entries _ => .ok entries
  | sequence _ items => items.reverse.foldlM (fun all item => (all ++ ·) <$> entriesOf item) []
  | scalar _ _ => .error .malformed
where
  entriesOf : Node → Except Fault (List (Node × Node))
    | mapping _ entries _ => .ok entries
    | _ => .error .malformed

mutual

/-- A node in which all merge keys are worked out. -/
def merge : Node → Except Fault Node
  | scalar tag text => .ok (scalar tag text)
  | sequence tag items => sequence tag <$> mergeItems items
  | mapping tag entries _ => do
    let (taken, own) ← mergeEntries [] entries
    return mapping tag (taken ++ own) (!taken.isEmpty)

def mergeItems : List Node → Except Fault (List Node)
  | [] => .ok []
  | item :: rest => do
    let item ← merge item
    let rest ← mergeItems rest
    return item :: rest

def mergeEntries (taken : List (Node × Node)) :
    List (Node × Node) → Except Fault (List (Node × Node) × List (Node × Node))
  | [] => .ok (taken, [])
  | (key, value) :: rest =>
    if key.tag == .mergeKey then
      if taken.isEmpty then do
        let source ← merge value
        let taken ← sources source
        mergeEntries taken rest
      else .error .malformed
    else do
      let key ← merge key
      let value ← merge value
      let (taken, own) ← mergeEntries taken rest
      return (taken, (key, value) :: own)

end

end ModulePins.Yaml.Node
