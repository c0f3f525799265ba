import ModulePins.Proofs.Checked
import ModulePins.Proofs.Lockfile.Nodes
import ModulePins.Yaml.Reader

/-!
# The value of a written lockfile

A mapping whose keys are distinct texts is the record of its values. Nothing is merged into the
mappings of a lockfile, and none of them says a name twice.
-/

namespace ModulePins.Yaml

namespace Node

def record (entries : List (String × Node)) : Node :=
  blankMapping .mapping (entries.map fun e => (.scalar .text e.1, e.2))

theorem merge_record {entries : List (String × Node)} (h : ∀ e ∈ entries, merge e.2 = .ok e.2) :
    merge (record entries) = .ok (record entries) := by
  have hentries : mergeEntries [] (entries.map fun e => (scalar .text e.1, e.2)) =
      .ok ([], entries.map fun e => (scalar .text e.1, e.2)) := by
    induction entries with
    | nil => rfl
    | cons entry entries ih =>
      have hvalue := h entry List.mem_cons_self
      have hmore := ih fun e he => h e (List.mem_cons_of_mem _ he)
      have htag : ((scalar .text entry.1).tag == .mergeKey) = false := rfl
      rw [List.map_cons, mergeEntries, htag, if_neg Bool.false_ne_true]
      simp only [merge, hvalue, hmore, bind, Except.bind, pure, Except.pure]
  simp only [record, blankMapping, merge, hentries, bind, Except.bind, pure, Except.pure]
  rfl

theorem merge_sequence {items : List Node} (h : ∀ item ∈ items, merge item = .ok item) :
    merge (.sequence .sequence items) = .ok (.sequence .sequence items) := by
  have hitems : mergeItems items = .ok items := by
    induction items with
    | nil => rfl
    | cons item items ih =>
      have hitem := h item List.mem_cons_self
      have hmore := ih fun i hi => h i (List.mem_cons_of_mem _ hi)
      simp only [mergeItems, hitem, hmore, bind, Except.bind, pure, Except.pure]
  rw [merge, hitems]
  rfl

end Node

def recordEntries (entries : List (String × Value)) : List (Value × Value) :=
  entries.map fun e => (.text e.1, e.2)

variable {older within : Bool} {layer : Nat}

theorem valueOf_text (text : String) :
    valueOf older within layer (.scalar .text text) = .ok (.text text) := by
  simp only [valueOf, scalarValue]
  rfl

theorem checkKey_text {name : String} {seen : List Value} (fault : Fault)
    (h : ∀ key ∈ seen, ∃ other, key = .text other ∧ other ≠ name) :
    checkKey layer fault seen (.text name) = .ok () := by
  have hseen : seen.any (sameKey (.text name)) = false := by
    rw [List.any_eq_false]
    intro key hkey
    obtain ⟨other, rfl, hne⟩ := h key hkey
    simpa [sameKey, Value.same] using hne.symm
  simp [checkKey, Value.unhashable?, hseen]

/-- Entries and the values of their nodes. -/
abbrev Valued (older : Bool) (layer : Nat) : List (String × Node) → List (String × Value) → Prop :=
  List.Forall₂ fun e v => e.1 = v.1 ∧ valueOf older false layer e.2 = .ok v.2

theorem entriesOf_record {entries : List (String × Node)} {values : List (String × Value)}
    (h : Valued older layer entries values) (hnodup : (values.map Prod.fst).Nodup)
    {seen : List Value}
    (hseen : ∀ key ∈ seen, ∃ other, key = .text other ∧ other ∉ values.map Prod.fst) :
    entriesOf older false layer false seen (entries.map fun e => (.scalar .text e.1, e.2)) =
      .ok (recordEntries values) := by
  induction h generalizing seen with
  | nil => simp only [List.map_nil, entriesOf]; rfl
  | @cons e v entries values hev _ ih =>
    obtain ⟨name, node⟩ := e
    obtain ⟨name', value⟩ := v
    obtain ⟨rfl, hvalue⟩ := hev
    rw [List.map_cons, List.nodup_cons] at hnodup
    have hcheck : checkKey layer .malformed seen (.text name) = .ok () := by
      refine checkKey_text _ fun key hkey => ?_
      obtain ⟨other, rfl, hother⟩ := hseen key hkey
      exact ⟨other, rfl, fun heq => hother (by simp [heq])⟩
    have hseen' : ∀ key ∈ Value.text name :: seen,
        ∃ other, key = .text other ∧ other ∉ values.map Prod.fst := by
      intro key hkey
      obtain rfl | hkey := List.mem_cons.mp hkey
      · exact ⟨name, rfl, hnodup.1⟩
      · obtain ⟨other, rfl, hother⟩ := hseen key hkey
        exact ⟨other, rfl, fun hmem => hother (List.mem_cons_of_mem _ hmem)⟩
    have hmore := ih hnodup.2 hseen'
    dsimp only at hvalue
    rw [List.map_cons]
    simp only [entriesOf, valueOf_text, hvalue]
    change (fun value _ more => (Value.text name, value) :: more) <$> Built.ok value <*>
      checkKey layer .malformed seen (.text name) <*> entriesOf older false layer false
        (.text name :: seen) (entries.map fun e => (.scalar .text e.1, e.2)) = _
    rw [hcheck, hmore]
    rfl

theorem setKey_record {values : List (String × Value)} {name : String} (value : Value)
    (hname : name ∉ values.map Prod.fst) :
    Value.setKey (recordEntries values) (.text name) value =
      recordEntries (values ++ [(name, value)]) := by
  have hany : ((recordEntries values).any fun e => e.1.same (.text name)) = false := by
    rw [List.any_eq_false]
    intro e he
    obtain ⟨v, hv, rfl⟩ := List.mem_map.mp he
    have hne : v.1 ≠ name := fun heq => hname (heq ▸ List.mem_map_of_mem hv)
    simpa [Value.same] using hne
  unfold Value.setKey
  rw [if_neg (by simpa using hany)]
  simp [recordEntries]

theorem gather_record {values : List (String × Value)} (hnodup : (values.map Prod.fst).Nodup) :
    gather (recordEntries values) = recordEntries values := by
  have hfold : ∀ more read : List (String × Value), ((read ++ more).map Prod.fst).Nodup →
      (recordEntries more).foldl (fun all e => Value.setKey all e.1 e.2) (recordEntries read) =
        recordEntries (read ++ more) := by
    intro more
    induction more with
    | nil => simp [recordEntries]
    | cons e more ih =>
      intro read hnodup
      have hname : e.1 ∉ read.map Prod.fst := by
        rw [List.map_append, List.map_cons] at hnodup
        exact fun hmem => (List.nodup_append.mp hnodup).2.2 _ hmem _ List.mem_cons_self rfl
      have hrest := ih (read ++ [e]) (by simpa using hnodup)
      rw [← setKey_record e.2 hname] at hrest
      simpa [recordEntries] using hrest
  exact hfold values [] hnodup

theorem valueOf_record {entries : List (String × Node)} {values : List (String × Value)}
    (h : Valued older (layer + 1) entries values) (hnodup : (values.map Prod.fst).Nodup) :
    valueOf older false layer (Node.record entries) = .ok (.mapping (recordEntries values)) := by
  have hentries : entriesOf older false (layer + 1) false [] (entries.map fun e => (.scalar .text e.1, e.2)) =
      .ok (recordEntries values) := entriesOf_record h hnodup nofun
  simp only [Node.record, Node.blankMapping, valueOf]
  change (fun entries => Value.mapping (gather entries)) <$> entriesOf older false (layer + 1) false []
    (entries.map fun e => (.scalar .text e.1, e.2)) = _
  rw [hentries]
  exact congrArg (fun entries => Built.ok (Value.mapping entries)) (gather_record hnodup)

theorem valueOf_sequence {items : List Node} {values : List Value}
    (h : List.Forall₂ (fun item v => valueOf older false (layer + 1) item = .ok v) items values) :
    valueOf older false layer (.sequence .sequence items) = .ok (.list values) := by
  have hitems : itemsOf older false (layer + 1) items = .ok values := by
    induction h with
    | nil => simp only [itemsOf]
    | cons hitem _ ih =>
      simp only [itemsOf, hitem, ih]
      rfl
  simp only [valueOf]
  change Value.list <$> itemsOf older false (layer + 1) items = _
  rw [hitems]
  rfl

end ModulePins.Yaml

namespace ModulePins

open Yaml Yaml.Node

/-- What a locked module reads back as. -/
def LockedModule.readBack (m : LockedModule) : LockedModule where
  name := Printer.readBack 4 7 m.name
  url := Printer.readBack 4 6 m.url
  version := Printer.readBack 4 10 m.version

def LockedFile.readBack (f : LockedFile) : LockedFile where
  name := Printer.readBack 4 7 f.name
  template := Printer.readBack 4 11 f.template
  moduleName := Printer.readBack 4 9 f.moduleName

def LockedModule.value (m : LockedModule) : Value :=
  .mapping (recordEntries [("name", .text m.name), ("url", .text m.url), ("version", .text m.version)])

def LockedFile.value (f : LockedFile) : Value :=
  .mapping (recordEntries
    [("name", .text f.name), ("template", .text f.template), ("module", .text f.moduleName)])

theorem LockedModule.read_value (m : LockedModule) : (read m.value).outcome = .ok m := by
  rfl

theorem LockedFile.read_value (f : LockedFile) : (read f.value).outcome = .ok f := by
  rfl

variable {older : Bool} {layer : Nat}

theorem itemNode_module (m : LockedModule) :
    itemNode m.entries = record [("name", .scalar .text m.readBack.name),
      ("url", .scalar .text m.readBack.url), ("version", .scalar .text m.readBack.version)] := by
  simp [itemNode, LockedModule.entries, entryNodes, record, LockedModule.readBack]

theorem itemNode_file (f : LockedFile) :
    itemNode f.entries = record [("name", .scalar .text f.readBack.name),
      ("template", .scalar .text f.readBack.template),
      ("module", .scalar .text f.readBack.moduleName)] := by
  simp [itemNode, LockedFile.entries, entryNodes, record, LockedFile.readBack]

theorem valueOf_module (m : LockedModule) :
    valueOf older false layer (itemNode m.entries) = .ok m.readBack.value := by
  have hnodup : ["name", "url", "version"].Nodup := by decide
  rw [itemNode_module]
  exact valueOf_record (.cons ⟨rfl, valueOf_text _⟩ (.cons ⟨rfl, valueOf_text _⟩
    (.cons ⟨rfl, valueOf_text _⟩ .nil))) hnodup

theorem valueOf_file (f : LockedFile) :
    valueOf older false layer (itemNode f.entries) = .ok f.readBack.value := by
  have hnodup : ["name", "template", "module"].Nodup := by decide
  rw [itemNode_file]
  exact valueOf_record (.cons ⟨rfl, valueOf_text _⟩ (.cons ⟨rfl, valueOf_text _⟩
    (.cons ⟨rfl, valueOf_text _⟩ .nil))) hnodup

theorem valueOf_list {α : Type} {entries : α → List (String × String)} {value : α → Value}
    (h : ∀ a, valueOf older false (layer + 1) (itemNode (entries a)) = .ok (value a))
    (items : List α) :
    valueOf older false layer (listNode (items.map entries)) = .ok (.list (items.map value)) := by
  refine valueOf_sequence ?_
  induction items with
  | nil => exact .nil
  | cons a items ih => exact .cons (h a) ih

theorem merge_record_of_text {entries : List (String × Node)}
    (h : ∀ e ∈ entries, ∃ text, e.2 = .scalar .text text) :
    (record entries).merge = .ok (record entries) := by
  refine merge_record fun e he => ?_
  obtain ⟨text, htext⟩ := h e he
  rw [htext, merge]

theorem merge_list {α : Type} {entries : α → List (String × String)}
    (h : ∀ a, (itemNode (entries a)).merge = .ok (itemNode (entries a))) (items : List α) :
    (listNode (items.map entries)).merge = .ok (listNode (items.map entries)) := by
  refine merge_sequence fun node hnode => ?_
  rw [List.map_map] at hnode
  obtain ⟨a, -, rfl⟩ := List.mem_map.mp hnode
  exact h a

theorem merge_module (m : LockedModule) :
    (itemNode m.entries).merge = .ok (itemNode m.entries) := by
  rw [itemNode_module]
  exact merge_record_of_text (by simp)

theorem merge_file (f : LockedFile) : (itemNode f.entries).merge = .ok (itemNode f.entries) := by
  rw [itemNode_file]
  exact merge_record_of_text (by simp)

namespace Lockfile

/-- What a lockfile reads back as once it was written. -/
def readBack (now : Instant) (lock : Lockfile) : Lockfile where
  version := Printer.readBack 2 8 lock.version
  generated := some (lock.generated.getD now)
  modules := lock.modules.map LockedModule.readBack
  files := lock.files.map LockedFile.readBack

/-- The value of a lockfile whose time is written as a text. -/
def value (lock : Lockfile) (generated : String) : Value :=
  .mapping (recordEntries [("version", .text lock.version), ("generated", .text generated),
    ("modules", .list (lock.modules.map LockedModule.value)),
    ("files", .list (lock.files.map LockedFile.value))])

theorem node_eq_record (now : Instant) (lock : Lockfile) :
    node now lock = record [("version", .scalar .text (Printer.readBack 2 8 lock.version)),
      ("generated", .scalar .text (Printer.readBack 2 10 (lock.generated.getD now).text)),
      ("modules", listNode (lock.modules.map LockedModule.entries)),
      ("files", listNode (lock.files.map LockedFile.entries))] := by
  simp [node, entryNodes, record]

theorem merge_node (now : Instant) (lock : Lockfile) :
    (node now lock).merge = .ok (node now lock) := by
  rw [node_eq_record]
  refine merge_record fun e he => ?_
  simp only [List.mem_cons, List.not_mem_nil, or_false] at he
  obtain rfl | rfl | rfl | rfl := he
  · rw [merge]
  · rw [merge]
  · exact merge_list merge_module _
  · exact merge_list merge_file _

/-- What the YAML of a written lockfile says. -/
theorem yaml_text (now : Instant) (lock : Lockfile) :
    Yaml.read (text now lock).toList = .ok (value (lock.readBack now)
      (Printer.readBack 2 10 (lock.generated.getD now).text)) := by
  have hnodup : ["version", "generated", "modules", "files"].Nodup := by decide
  have hvalue : valueOf false false 0 (node now lock) = .ok (value (lock.readBack now)
      (Printer.readBack 2 10 (lock.generated.getD now).text)) := by
    have hmodules : valueOf false false 1 (listNode (lock.modules.map LockedModule.entries)) =
        .ok (.list ((lock.readBack now).modules.map LockedModule.value)) := by
      rw [readBack, List.map_map]
      exact valueOf_list valueOf_module lock.modules
    have hfiles : valueOf false false 1 (listNode (lock.files.map LockedFile.entries)) =
        .ok (.list ((lock.readBack now).files.map LockedFile.value)) := by
      rw [readBack, List.map_map]
      exact valueOf_list valueOf_file lock.files
    rw [node_eq_record]
    exact valueOf_record (.cons ⟨rfl, valueOf_text _⟩ (.cons ⟨rfl, valueOf_text _⟩
      (.cons ⟨rfl, hmodules⟩ (.cons ⟨rfl, hfiles⟩ .nil)))) hnodup
  unfold Yaml.read
  rw [ofText_text]
  simp only [bind, Except.bind, merge_node]
  change (valueOf false false 0 (node now lock)).outcome.mapError Prod.snd = _
  rw [hvalue]
  rfl

theorem eachFrom_eq_ok {α : Type} {f : Value → Checked α} {value : α → Value}
    (h : ∀ a, (f (value a)).outcome = .ok a) (items : List α) (n : Int) :
    (Checked.eachFrom f n (items.map value)).outcome = .ok items := by
  induction items generalizing n with
  | nil => rfl
  | cons a items ih =>
    rw [List.map_cons, Checked.eachFrom, Checked.seq_eq_ok]
    exact ⟨List.cons a, items, Checked.map_eq_ok.mpr ⟨a, Checked.under_eq_ok.mpr (h a), rfl⟩, ih (n + 1), rfl⟩

theorem read_value {lock : Lockfile} {generated : String} {t : Instant}
    (hgenerated : Instant.read? generated = some t) :
    (Lockfile.read (lock.value generated)).outcome = .ok { lock with generated := some t } := by
  have hmodules := eachFrom_eq_ok LockedModule.read_value lock.modules 0
  have hfiles := eachFrom_eq_ok LockedFile.read_value lock.files 0
  have hinstant : (readInstant (.text generated)).outcome = .ok t := by
    simp [readInstant, readInstant.orElse, hgenerated]
  refine Checked.seq_eq_ok.mpr ⟨_, lock.files, Checked.seq_eq_ok.mpr ⟨_, lock.modules,
    Checked.seq_eq_ok.mpr ⟨_, some t, Checked.map_eq_ok.mpr ⟨lock.version, ?_, rfl⟩, ?_, rfl⟩, ?_, rfl⟩,
    ?_, rfl⟩
  · exact Checked.optional_eq_ok.mpr (.inl ⟨_, rfl, rfl⟩)
  · exact Checked.optional_eq_ok.mpr (.inl ⟨_, rfl, Checked.map_eq_ok.mpr ⟨t, hinstant, rfl⟩⟩)
  · exact Checked.optional_eq_ok.mpr (.inl ⟨_, rfl, hmodules⟩)
  · exact Checked.optional_eq_ok.mpr (.inl ⟨_, rfl, hfiles⟩)

end Lockfile

end ModulePins
