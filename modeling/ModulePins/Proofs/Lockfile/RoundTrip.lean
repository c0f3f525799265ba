import ModulePins.Document
import ModulePins.Proofs.Calendar
import ModulePins.Proofs.Lockfile.Records
import ModulePins.Proofs.Lockfile.Values
import ModulePins.Proofs.Yaml.Kept

/-!
# Written lockfiles read back

Every written lockfile can be read, and each of its texts comes back as it reads back by itself. So
a lockfile survives exactly if all its texts do. Those without spaces and next lines always survive;
a next line between single quotes, several spaces before a word that is longer than a line, and a
line that is broken inside double quotes without a space are the ways to get lost.
-/

namespace ModulePins

open Yaml

namespace Lockfile

/-- Any lockfile that was written is read, as what its texts read back as. -/
theorem readText_text (path : String) {now : Instant} {lock : Lockfile}
    (h : (lock.generated.getD now).IsValid) :
    (readText path (text now lock)).outcome = .ok (lock.readBack now) := by
  have hstamp : Printer.readBack 2 10 (lock.generated.getD now).text = (lock.generated.getD now).text := by
    refine Printer.readBack_eq_self (fun hspace => ?_) fun c hc => ?_
    · exact absurd (Instant.isGraphic_text _ _ hspace).1 (by decide)
    · have hrange := Instant.isGraphic_text _ _ hc
      omega
  have hread : (Lockfile.read (value (lock.readBack now) (lock.generated.getD now).text)).outcome =
      .ok (lock.readBack now) := read_value (Instant.read?_text h)
  have hrecord : ∀ lock generated, Document.record (value lock generated) = value lock generated :=
    fun _ _ => by simp [Document.record, value, recordEntries, Value.isTruthy]
  unfold readText Document.read
  rw [yaml_text, hstamp]
  simp only [Document.report, hrecord, hread]
  rfl

variable {tool : String} {modules : List PinnedModule}

/-- Every text of a lockfile comes back unchanged. -/
structure Keeps (tool : String) (modules : List PinnedModule) : Prop where
  version : Printer.readBack 2 8 tool = tool
  modules : ∀ m ∈ modules, (LockedModule.ofPinned m).readBack = .ofPinned m

theorem modules_readBack_iff (now : Instant) :
    ((ofModules tool modules).readBack now).modules = (ofModules tool modules).modules ↔
      ∀ m ∈ modules, (LockedModule.ofPinned m).readBack = .ofPinned m := by
  change (ofModules tool modules).modules.map LockedModule.readBack =
    (ofModules tool modules).modules ↔ _
  constructor
  · intro hmap m hm
    have hid := hmap.trans (List.map_id _).symm
    exact List.map_inj_left.mp hid _ (mem_ofModules.mpr ⟨m, hm, rfl⟩)
  · intro hkeeps
    refine (List.map_congr_left fun locked hlocked => ?_).trans (List.map_id _)
    obtain ⟨m, hm, rfl⟩ := mem_ofModules.mp hlocked
    exact hkeeps m hm

theorem records_readBack_iff (now : Instant) (hnames : (modules.map PinnedModule.name).Nodup) :
    ((ofModules tool modules).readBack now).Records tool modules ↔ Keeps tool modules := by
  constructor
  · intro h
    exact ⟨h.version, (modules_readBack_iff now).mp (h.modules_eq hnames)⟩
  · intro h
    have hrecords := records_ofModules tool hnames
    have hmodules : ((ofModules tool modules).readBack now).modules = (ofModules tool modules).modules :=
      (modules_readBack_iff now).mpr h.modules
    refine ⟨h.version, ?_, ?_, ?_⟩
    · rw [hmodules]
      exact hrecords.perm
    · rw [hmodules]
      exact hrecords.sorted
    · intro m hm
      rw [module?, hmodules]
      exact hrecords.found m hm

/-- A text without spaces and next lines. -/
def IsSolid (text : String) : Prop :=
  ∀ c ∈ text.toList, c ≠ ' ' ∧ c.toNat ≠ 0x85

instance (text : String) : Decidable (IsSolid text) :=
  decidable_of_iff (text.toList.all fun c => c != ' ' && c.toNat != 0x85) (by simp [IsSolid])

theorem IsSolid.readBack_eq_self {text : String} (h : IsSolid text) (indent column : Nat) :
    Printer.readBack indent column text = text :=
  Printer.readBack_eq_self (fun hspace => (h _ hspace).1 rfl) fun c hc => (h c hc).2

/-- Solid texts are kept, whatever else they hold and whatever they look like. -/
theorem keeps_of_isSolid (htool : IsSolid tool)
    (hmodules : ∀ m ∈ modules, IsSolid m.name ∧ IsSolid m.uri ∧ IsSolid m.version) :
    Keeps tool modules where
  version := htool.readBack_eq_self _ _
  modules m hm := by
    obtain ⟨hname, huri, hversion⟩ := hmodules m hm
    simp [LockedModule.readBack, LockedModule.ofPinned, hname.readBack_eq_self, huri.readBack_eq_self,
      hversion.readBack_eq_self]

/-- The lockfile of a run is read back, and it records the result exactly if all texts are kept. -/
theorem readText_ofModules (path tool : String) {now : Instant} (hnow : now.IsValid)
    (hnames : (modules.map PinnedModule.name).Nodup) :
    ∃ lock, (readText path (text now (ofModules tool modules))).outcome = .ok lock ∧
      lock.generated = some now ∧
      lock.version = Printer.readBack 2 8 tool ∧
      lock.modules = (ofModules tool modules).modules.map LockedModule.readBack ∧
      (lock.Records tool modules ↔ Keeps tool modules) :=
  ⟨_, readText_text path hnow, rfl, rfl, rfl, records_readBack_iff now hnames⟩

/-- Names and versions that look like something else come back as the texts they are. -/
theorem readText_ofModules_lookalikes :
    let now : Instant :=
      { date := { year := 2024, month := 2, day := 29 }, hour := 23, micro := 1, zone := some { minutes := 0 } }
    let modules : List PinnedModule :=
      [{ name := "null", uri := "#", version := "1e3" }, { name := "a\n\t'", uri := "x:", version := "1.10" },
        { name := "\u0000", uri := "", version := "2024-02-29" }]
    now.IsValid ∧ (modules.map PinnedModule.name).Nodup ∧
      ∃ lock, (readText fileName (text now (ofModules "true" modules))).outcome = .ok lock ∧
        lock.generated = some now ∧ lock.Records "true" modules := by
  intro now modules
  have hnow : now.IsValid :=
    { date := by decide, hour_le := by decide, minute_le := by decide, second_le := by decide
      micro_le := by decide, zone := by simp [now] }
  have hnames : (modules.map PinnedModule.name).Nodup := by decide
  obtain ⟨lock, hread, hgenerated, -, -, hrecords⟩ := readText_ofModules fileName "true" hnow hnames
  have hkeeps : Keeps "true" modules := keeps_of_isSolid (by decide) (by decide)
  exact ⟨hnow, hnames, lock, hread, hgenerated, hrecords.mpr hkeeps⟩

/-- A next line in a version becomes a space. -/
theorem readText_ofModules_nextLine :
    let now : Instant := { date := { year := 2024, month := 2, day := 29 }, zone := some { minutes := 0 } }
    let modules : List PinnedModule := [{ name := "a", uri := "https://a", version := "a\u0085b" }]
    ∃ lock, (readText fileName (text now (ofModules "0.4.0" modules))).outcome = .ok lock ∧
      lock.module? "a" = some { name := "a", url := "https://a", version := "a b" } ∧
      ¬lock.Records "0.4.0" modules := by
  intro now modules
  have hnow : now.IsValid :=
    { date := by decide, hour_le := by decide, minute_le := by decide, second_le := by decide
      micro_le := by decide, zone := by simp [now] }
  refine ⟨_, readText_text fileName hnow, ?_, ?_⟩
  · have hmodules : ((ofModules "0.4.0" modules).readBack now).modules =
        [{ name := Printer.readBack 4 7 "a", url := Printer.readBack 4 6 "https://a"
           version := Printer.readBack 4 10 "a\u0085b" }] := by
      simp [readBack, ofModules, modules, LockedModule.readBack, LockedModule.ofPinned]
    rw [module?, hmodules]
    decide
  · rw [records_readBack_iff now (by decide)]
    intro hkeeps
    have hversion := congrArg LockedModule.version (hkeeps.modules _ List.mem_cons_self)
    revert hversion
    decide

end Lockfile

end ModulePins
