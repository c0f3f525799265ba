import ModulePins.Proofs.Cache

/-!
# Files that are no records

Any bytes may stand in the file of an entry. They hold a pick if they are the UTF-8 of a JSON
mapping with a tag, and are passed over with a notice otherwise. Two kinds of bytes are not passed
over: what is no UTF-8 at all, and brackets nested too deep. Both make reading the entry fail.
-/

namespace ModulePins

namespace Cache

variable {c : Cache} {now : Int} {uri channel path : String} {bytes : List UInt8} {cs : List Char}
variable {pick : Pick} {failure : Failure} {depth : Nat}

/-- What a text is read as when a record is expected. -/
def valueOf (depth : Nat) (cs : List Char) : Except Json.Fault Value :=
  Json.readText (depth + 1) (Text.unifyLineEnds cs)

/-- The bytes are UTF-8 for a JSON mapping that has the tag of the pick. -/
def Holds (depth : Nat) (bytes : List UInt8) (pick : Pick) : Prop :=
  ∃ cs entries, Text.Utf8.encode cs = bytes ∧ valueOf depth cs = .ok (.mapping entries) ∧
    Value.field? entries "tag" = some (.text pick.tag) ∧ pick.tag ≠ "" ∧
      pick.mutable = (Value.field? entries "mutable").any Value.isTruthy

/-- The bytes are no UTF-8, or a text with too many brackets; what comes of it. -/
inductive Unreadable (depth : Nat) (bytes : List UInt8) : Failure → Prop
  | encoding {fault : Text.Utf8.Fault} (hno : ∀ cs, Text.Utf8.encode cs ≠ bytes)
      (hstop : Text.Utf8.decode bytes = .error fault) :
      Unreadable depth bytes (.accident (.undecodable (.ofUtf8 bytes 0 fault)))
  | nesting {cs : List Char} {overflow : Overflow} (hbytes : Text.Utf8.encode cs = bytes)
      (hstop : valueOf depth cs = .error (.tooDeep overflow)) :
      Unreadable depth bytes (.accident (.tooDeep overflow))

/-- Bytes that are no UTF-8 cannot be read, nor can a text with too many brackets; all else can. -/
theorem exists_unreadable_iff : (∃ failure, Unreadable depth bytes failure) ↔
    (∀ cs, Text.Utf8.encode cs ≠ bytes) ∨
      ∃ cs overflow, Text.Utf8.encode cs = bytes ∧ valueOf depth cs = .error (.tooDeep overflow) := by
  constructor
  · rintro ⟨_, ⟨hno, _⟩ | ⟨hbytes, hstop⟩⟩
    · exact .inl hno
    · exact .inr ⟨_, _, hbytes, hstop⟩
  · rintro (hno | ⟨cs, overflow, hbytes, hstop⟩)
    · cases hdecode : Text.Utf8.decode bytes with
      | ok cs => exact absurd (Text.Utf8.decode_eq_ok_iff.mp hdecode) (hno cs)
      | error fault => exact ⟨_, .encoding hno hdecode⟩
    · exact ⟨_, .nesting hbytes hstop⟩

end Cache

namespace Pick

variable {v : Value} {pick : Pick}

theorem ofRecord_eq_ok_iff : ofRecord v = .ok pick ↔ ∃ entries, v = .mapping entries ∧
    Value.field? entries "tag" = some (.text pick.tag) ∧ pick.tag ≠ "" ∧
      pick.mutable = (Value.field? entries "mutable").any Value.isTruthy := by
  obtain ⟨tag, mutable⟩ := pick
  cases v with
  | mapping entries =>
    cases hfield : Value.field? entries "tag" with
    | none => simp [ofRecord, hfield]
    | some value =>
      cases value with
      | text found =>
        by_cases hempty : found = ""
        · simp only [ofRecord, hfield, if_pos hempty, Value.mapping.injEq, exists_eq_left',
            Option.some.injEq, Value.text.injEq, reduceCtorEq, false_iff]
          rintro ⟨rfl, hne, _⟩
          exact hne hempty
        · simp only [ofRecord, hfield, if_neg hempty, Value.mapping.injEq, exists_eq_left',
            Option.some.injEq, Value.text.injEq, Except.ok.injEq, Pick.mk.injEq]
          constructor
          · rintro ⟨rfl, rfl⟩
            exact ⟨rfl, hempty, rfl⟩
          · rintro ⟨rfl, _, rfl⟩
            exact ⟨rfl, rfl⟩
      | _ => simp [ofRecord, hfield]
  | _ => simp [ofRecord]

end Pick

namespace Cache

variable {c : Cache} {now : Int} {uri channel path : String} {bytes : List UInt8} {cs : List Char}
variable {pick : Pick} {failure : Failure} {depth : Nat}

def held? (depth : Nat) (bytes : List UInt8) : Option Pick :=
  match Text.Utf8.decode bytes with
  | .error _ => none
  | .ok cs =>
    match valueOf depth cs with
    | .error _ => none
    | .ok v => (Pick.ofRecord v).toOption

theorem held?_of_decode (hdecode : Text.Utf8.decode bytes = .ok cs) :
    held? depth bytes = some pick ↔ ∃ v, valueOf depth cs = .ok v ∧ Pick.ofRecord v = .ok pick := by
  rw [held?, hdecode]
  dsimp only
  cases valueOf depth cs with
  | error fault => simp
  | ok v => cases hrecord : Pick.ofRecord v <;> simp [hrecord, Except.toOption]

theorem held?_eq_some_iff : held? depth bytes = some pick ↔ Holds depth bytes pick := by
  constructor
  · intro h
    cases hdecode : Text.Utf8.decode bytes with
    | error fault => simp [held?, hdecode] at h
    | ok cs =>
      obtain ⟨v, hv, hrecord⟩ := (held?_of_decode hdecode).mp h
      obtain ⟨entries, rfl, hfields⟩ := Pick.ofRecord_eq_ok_iff.mp hrecord
      exact ⟨cs, entries, Text.Utf8.decode_eq_ok_iff.mp hdecode, hv, hfields⟩
  · rintro ⟨cs, entries, hbytes, hv, hfields⟩
    exact (held?_of_decode (Text.Utf8.decode_eq_ok_iff.mpr hbytes)).mpr
      ⟨_, hv, Pick.ofRecord_eq_ok_iff.mpr ⟨entries, rfl, hfields⟩⟩

theorem readRecord_eq_some_iff : (readRecord depth path cs).outcome = .ok (some pick) ↔
    ∃ v, valueOf depth cs = .ok v ∧ Pick.ofRecord v = .ok pick := by
  unfold readRecord valueOf
  dsimp only
  cases Json.readText (depth + 1) (Text.unifyLineEnds cs) with
  | ok v => cases hrecord : Pick.ofRecord v <;> simp [hrecord, Report.ok]
  | error fault => cases fault <;> simp [Report.fail]

theorem readRecord_eq_error_iff : (readRecord depth path cs).outcome = .error failure ↔
    ∃ overflow, valueOf depth cs = .error (.tooDeep overflow) ∧
      failure = .accident (.tooDeep overflow) := by
  unfold readRecord valueOf
  dsimp only
  cases Json.readText (depth + 1) (Text.unifyLineEnds cs) with
  | ok v => cases hrecord : Pick.ofRecord v <;> simp [hrecord, Report.ok]
  | error fault => cases fault <;> simp [Report.fail, eq_comm]

theorem get_of_fresh {slot : Slot} (hslot : c.slot? uri channel = some slot)
    (hfresh : c.isFreshSlot now slot = true) (hcontent : slot.content = .file bytes) :
    c.get now uri channel =
      match Text.Utf8.decode bytes with
      | .error fault => .fail (.accident (.undecodable (.ofUtf8 bytes 0 fault)))
      | .ok cs => readRecord c.depth (c.pathOf uri channel) cs := by
  obtain ⟨content, stamp⟩ := slot
  obtain rfl : content = .file bytes := hcontent
  have hkept : (c.slot? uri channel).filter (c.isFreshSlot now) =
      some { content := .file bytes, stamp } := by
    rw [hslot, Option.filter_some, if_pos hfresh]
  unfold get
  generalize (c.slot? uri channel).filter (c.isFreshSlot now) = kept at hkept ⊢
  subst hkept
  rfl

/-- What a fresh file gives, whatever its bytes are. -/
structure Lawful (depth : Nat) (bytes : List UInt8) (outcome : Except Failure (Option Pick)) :
    Prop where
  found : ∀ pick, outcome = .ok (some pick) ↔ Holds depth bytes pick
  failed : ∀ failure, outcome = .error failure ↔ Unreadable depth bytes failure
  fails_iff : (∃ failure, outcome = .error failure) ↔
    (∀ cs, Text.Utf8.encode cs ≠ bytes) ∨
      ∃ cs overflow, Text.Utf8.encode cs = bytes ∧ valueOf depth cs = .error (.tooDeep overflow)
  missed : outcome = .ok none ↔
    (∀ pick, ¬Holds depth bytes pick) ∧ ∀ failure, ¬Unreadable depth bytes failure

theorem unreadable_of_decode (hdecode : Text.Utf8.decode bytes = .ok cs) :
    Unreadable depth bytes failure ↔ ∃ overflow,
      valueOf depth cs = .error (.tooDeep overflow) ∧ failure = .accident (.tooDeep overflow) := by
  constructor
  · rintro (⟨hno, _⟩ | ⟨hbytes, hstop⟩)
    · exact absurd (Text.Utf8.decode_eq_ok_iff.mp hdecode) (hno cs)
    · rw [Text.Utf8.decode_eq_ok_iff.mpr hbytes, Except.ok.injEq] at hdecode
      subst hdecode
      exact ⟨_, hstop, rfl⟩
  · rintro ⟨overflow, hstop, rfl⟩
    exact .nesting (Text.Utf8.decode_eq_ok_iff.mp hdecode) hstop

theorem unreadable_of_decode_error {fault : Text.Utf8.Fault}
    (hdecode : Text.Utf8.decode bytes = .error fault) :
    Unreadable depth bytes failure ↔
      failure = .accident (.undecodable (.ofUtf8 bytes 0 fault)) := by
  have hno : ∀ cs, Text.Utf8.encode cs ≠ bytes := by
    intro cs hcs
    rw [Text.Utf8.decode_eq_ok_iff.mpr hcs] at hdecode
    cases hdecode
  constructor
  · rintro (⟨_, hstop⟩ | ⟨hbytes, _⟩)
    · rw [hdecode, Except.error.injEq] at hstop
      rw [hstop]
    · exact absurd hbytes (hno _)
  · rintro rfl
    exact .encoding hno hdecode

theorem get_lawful {slot : Slot} (hslot : c.slot? uri channel = some slot)
    (hfresh : c.isFreshSlot now slot = true) (hcontent : slot.content = .file bytes) :
    Lawful c.depth bytes (c.get now uri channel).outcome := by
  have hget := get_of_fresh hslot hfresh hcontent
  obtain ⟨hfound, hfailed⟩ :
      (∀ pick, (c.get now uri channel).outcome = .ok (some pick) ↔ Holds c.depth bytes pick) ∧
        ∀ failure, (c.get now uri channel).outcome = .error failure ↔ Unreadable c.depth bytes failure := by
    simp only [← held?_eq_some_iff, hget]
    cases hdecode : Text.Utf8.decode bytes with
    | error fault =>
      refine ⟨fun pick => ?_, fun failure => ?_⟩
      · simp [held?, hdecode, Report.fail]
      · rw [unreadable_of_decode_error hdecode]
        simp [Report.fail, eq_comm]
    | ok cs =>
      refine ⟨fun pick => ?_, fun failure => ?_⟩
      · rw [held?_of_decode hdecode]
        exact readRecord_eq_some_iff
      · rw [unreadable_of_decode hdecode]
        exact readRecord_eq_error_iff
  refine ⟨hfound, hfailed, (exists_congr hfailed).trans exists_unreadable_iff, ?_⟩
  simp only [← hfound, ← hfailed]
  cases (c.get now uri channel).outcome with
  | error failure => simp
  | ok found => cases found <;> simp

end Cache

/-! ## Taking corrupt entries out -/

/-- A file that holds no pick. -/
def Slot.IsCorrupt (depth : Nat) (slot : Slot) : Prop :=
  ∃ bytes, slot.content = .file bytes ∧ ∀ pick, ¬Cache.Holds depth bytes pick

theorem Slot.isCorrupt_iff (depth : Nat) (slot : Slot) : slot.IsCorrupt depth ↔
    ∃ bytes, slot.content = .file bytes ∧ Cache.held? depth bytes = none := by
  simp only [IsCorrupt, ← Cache.held?_eq_some_iff, Option.eq_none_iff_forall_ne_some, ne_eq]

instance (depth : Nat) (slot : Slot) : Decidable (slot.IsCorrupt depth) :=
  match hcontent : slot.content with
  | .folder => .isFalse (by simp [Slot.IsCorrupt, hcontent])
  | .file bytes =>
    decidable_of_iff (Cache.held? depth bytes = none) (by simp [slot.isCorrupt_iff depth, hcontent])

example : ({ content := .file "[1, 2]".toUTF8.toList, stamp := 0 } : Slot).IsCorrupt 2 := by
  decide +kernel

namespace Cache

variable {c d first other : Cache} {now : Int} {uri channel : String} {pick : Pick}

/-- The same cache without some of the corrupt entries. -/
structure Cleared (c d : Cache) : Prop where
  root : d.root = c.root
  rootIsFile : d.rootIsFile = c.rootIsFile
  ttl : d.ttl = c.ttl
  depth : d.depth = c.depth
  slots : ∀ uri channel, d.slot? uri channel = c.slot? uri channel ∨
    d.slot? uri channel = none ∧ ∃ slot, c.slot? uri channel = some slot ∧ slot.IsCorrupt c.depth

def without (c : Cache) (gone : String → Bool) : Cache :=
  { c with slots := c.slots.filter fun (key, _) => !gone key }

theorem cleared_without {gone : String → Bool}
    (h : ∀ key slot, c.slots.lookup key = some slot → gone key = true → slot.IsCorrupt c.depth) :
    Cleared c (c.without gone) where
  root := rfl
  rootIsFile := rfl
  ttl := rfl
  depth := rfl
  slots uri channel := by
    by_cases hroot : c.rootIsFile = true
    · exact .inl (by rw [slot?, slot?, if_pos hroot]; exact if_pos hroot)
    · have hslot : c.slot? uri channel = c.slots.lookup (cacheKey uri channel) := if_neg hroot
      have hcleared : (c.without gone).slot? uri channel =
          if gone (cacheKey uri channel) then none else c.slot? uri channel := by
        rw [hslot, ← lookup_filter_gone]
        exact if_neg hroot
      rw [hcleared]
      split
      · rename_i hgone
        cases hfound : c.slot? uri channel with
        | none => exact .inl rfl
        | some slot => exact .inr ⟨rfl, slot, rfl, h _ slot (hslot.symm.trans hfound) hgone⟩
      · exact .inl rfl

/-- Reading a fresh entry that was taken out fails. -/
def Spoils (c d : Cache) (now : Int) (failure : Failure) : Prop :=
  ∃ uri channel slot bytes, c.slot? uri channel = some slot ∧ d.slot? uri channel = none ∧
    c.isFreshSlot now slot = true ∧ slot.content = .file bytes ∧ Unreadable c.depth bytes failure

/-- The caches `c` and `d` differ in corrupt entries only that `first` had and `other` had not. -/
structure ClearedFrom (first other c d : Cache) : Prop where
  root : d.root = c.root
  rootIsFile : d.rootIsFile = c.rootIsFile
  ttl : d.ttl = c.ttl
  depth : d.depth = c.depth
  sameTtl : c.ttl = first.ttl
  sameDepth : c.depth = first.depth
  slots : ∀ uri channel, d.slot? uri channel = c.slot? uri channel ∨
    d.slot? uri channel = none ∧ ∃ slot, c.slot? uri channel = some slot ∧ slot.IsCorrupt c.depth ∧
      first.slot? uri channel = some slot ∧ other.slot? uri channel = none

theorem Cleared.clearedFrom (h : Cleared c d) : ClearedFrom c d c d where
  root := h.root
  rootIsFile := h.rootIsFile
  ttl := h.ttl
  depth := h.depth
  sameTtl := rfl
  sameDepth := rfl
  slots uri channel := by
    obtain hsame | ⟨hnone, slot, hslot, hcorrupt⟩ := h.slots uri channel
    · exact .inl hsame
    · exact .inr ⟨hnone, slot, hslot, hcorrupt, hslot, hnone⟩

theorem ClearedFrom.folderOf (h : ClearedFrom first other c d) (uri channel : String) :
    d.folderOf uri channel = c.folderOf uri channel := by
  rw [Cache.folderOf, Cache.folderOf, h.root]

theorem ClearedFrom.pathOf (h : ClearedFrom first other c d) (uri channel : String) :
    d.pathOf uri channel = c.pathOf uri channel := by
  rw [Cache.pathOf, Cache.pathOf, h.folderOf]

theorem ClearedFrom.isFreshSlot (h : ClearedFrom first other c d) :
    d.isFreshSlot now = c.isFreshSlot now := by
  funext slot
  rw [Cache.isFreshSlot, Cache.isFreshSlot, h.ttl]

/-- A corrupt entry is a miss like no entry, unless reading it fails. -/
theorem ClearedFrom.get (h : ClearedFrom first other c d) (now : Int) (uri channel : String) :
    d.get now uri channel = c.get now uri channel ∨
      d.get now uri channel = .ok none ∧ ((c.get now uri channel).outcome = .ok none ∨
        ∃ failure, (c.get now uri channel).outcome = .error failure ∧
          Spoils first other now failure) := by
  obtain hsame | ⟨hnone, slot, hslot, ⟨bytes, hcontent, hcorrupt⟩, hfirst, hother⟩ :=
    h.slots uri channel
  · left
    rw [Cache.get, Cache.get, hsame, h.isFreshSlot, h.pathOf, h.depth]
  · right
    refine ⟨by rw [Cache.get, hnone, Option.filter_none], ?_⟩
    by_cases hfresh : c.isFreshSlot now slot = true
    · have hlawful := get_lawful hslot hfresh hcontent
      cases houtcome : (c.get now uri channel).outcome with
      | error failure =>
        have hagain : first.isFreshSlot now slot = true := by
          rw [← hfresh, Cache.isFreshSlot, Cache.isFreshSlot, h.sameTtl]
        exact .inr ⟨failure, rfl, uri, channel, slot, bytes, hfirst, hother, hagain, hcontent,
          h.sameDepth ▸ (hlawful.failed failure).mp houtcome⟩
      | ok found =>
        cases found with
        | none => exact .inl rfl
        | some pick => exact absurd ((hlawful.found pick).mp houtcome) (hcorrupt pick)
    · left
      rw [Cache.get, hslot, Option.filter_some, if_neg hfresh]
      rfl

theorem ClearedFrom.put (h : ClearedFrom first other c d) (now : Int) (uri channel : String)
    (pick : Pick) :
    (∃ fault, c.put now uri channel pick = .error fault ∧
      d.put now uri channel pick = .error fault) ∨
    ∃ c' d', c.put now uri channel pick = .ok c' ∧ d.put now uri channel pick = .ok d' ∧
      ClearedFrom first other c' d' := by
  have hsame : (d.slot? uri channel).map Slot.content = some .folder ↔
      (c.slot? uri channel).map Slot.content = some .folder := by
    obtain hsame | ⟨hnone, slot, hslot, ⟨bytes, hcontent, _⟩, _⟩ := h.slots uri channel
    · rw [hsame]
    · simp [hnone, hslot, hcontent]
  by_cases hroot : c.rootIsFile = true
  · refine .inl ⟨.notADirectory (c.folderOf uri channel), ?_, ?_⟩
    · rw [Cache.put, if_pos hroot]
    · rw [Cache.put, h.rootIsFile, if_pos hroot, h.folderOf]
  · have hc : c.rootIsFile = false := by simpa using hroot
    have hd : d.rootIsFile = false := h.rootIsFile.trans hc
    by_cases hblocked : (c.slot? uri channel).map Slot.content = some .folder
    · refine .inl ⟨_, put_of_folder hc hblocked, ?_⟩
      rw [put_of_folder hd (hsame.mpr hblocked), h.folderOf, h.pathOf]
    · refine .inr ⟨_, _, put_of_free hc hblocked, put_of_free hd (hsame.not.mpr hblocked),
        h.root, h.rootIsFile, h.ttl, h.depth, h.sameTtl, h.sameDepth, fun uri' channel' => ?_⟩
      rw [slot?_fill hc, slot?_fill hd]
      split
      · exact .inl rfl
      · exact h.slots uri' channel'

end Cache

end ModulePins
