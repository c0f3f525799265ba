import ModulePins.Cache
import ModulePins.Proofs.Json.Quoted
import ModulePins.Proofs.Utf8

/-!
# What the cache keeps

A pick that was put in the cache is found there until it expires, unless its tag is empty, and
nothing else is found in its place. Picks for other repositories and channels stay as they are, as
long as no two of them share a key.
-/

namespace ModulePins

namespace Text

theorem unifyLineEnds_of_not_mem {cs : List Char} (h : '\r' ∉ cs) : unifyLineEnds cs = cs := by
  induction cs with
  | nil => rfl
  | cons c cs ih =>
    rw [List.mem_cons, not_or] at h
    rw [unifyLineEnds, ih h.2]
    · intro _ hc
      exact absurd hc.symm h.1
    · intro hc
      exact absurd hc.symm h.1

end Text

namespace Pick

open Json Text

theorem record_toList (pick : Pick) :
    pick.record.toList =
      "\x7b\"tag\": ".toList ++ (quoted pick.tag).toList ++ ", \"mutable\": ".toList ++
        (if pick.mutable then "true" else "false").toList ++ "\x7d".toList := by
  simp only [record, String.toList_append]

theorem isPlain_record (pick : Pick) : ∀ c ∈ pick.record.toList, IsPlain c := by
  have hword : ∀ c ∈ (if pick.mutable then "true" else "false").toList, IsPlain c := by
    cases pick.mutable with
    | true => exact isPlain_of_all (by decide)
    | false => exact isPlain_of_all (by decide)
  rw [record_toList]
  intro c hc
  simp only [List.mem_append] at hc
  rcases hc with (((hc | hc) | hc) | hc) | hc
  · exact isPlain_of_all (by decide) c hc
  · exact isPlain_quoted pick.tag c hc
  · exact isPlain_of_all (by decide) c hc
  · exact hword c hc
  · exact isPlain_of_all (by decide) c hc

theorem readText_braces {depth : Nat} {rest : List Char} {v : Value}
    (h : readEntries (readValue depth) [] (rest.length + 2) ('"' :: rest) = .ok (v, [])) :
    readText (depth + 1) ('\x7b' :: '"' :: rest) = .ok v := by
  simp [readText, readDocument, readValue, skipSpace, isSpace, h]

theorem readText_record (pick : Pick) (depth : Nat) :
    readText (depth + 1) pick.record.toList =
      .ok (.mapping [(.text "tag", .text pick.tag), (.text "mutable", .bool pick.mutable)]) := by
  obtain ⟨inner, hinner⟩ : ∃ inner, (quoted pick.tag).toList = '"' :: inner := by
    rw [quoted, String.toList_ofList]
    exact ⟨_, rfl⟩
  have htag : ∀ rest, readValue depth ('"' :: (inner ++ rest)) = .ok (.text pick.tag, rest) := by
    intro rest
    rw [← List.cons_append, ← hinner]
    exact readValue_quoted depth pick.tag rest
  have hword : readValue depth
      (((if pick.mutable then "true" else "false").toList ++ ['\x7d']).dropWhile isSpace) =
        .ok (.bool pick.mutable, ['\x7d']) := by
    unfold readValue
    cases pick.mutable <;> rfl
  have hkeys : Value.setKey (Value.setKey [] (.text "tag") (.text pick.tag)) (.text "mutable")
      (.bool pick.mutable) = [(.text "tag", .text pick.tag), (.text "mutable", .bool pick.mutable)] :=
    rfl
  rw [record_toList, hinner]
  simp only [String.reduceToList, List.cons_append, List.nil_append, List.append_assoc]
  apply readText_braces
  simp [readEntries, readString, skipSpace, isSpace, bind, Except.bind, pure, Except.pure, htag,
    hword, hkeys]

/-- The record of a pick is the record of that pick, unless its tag is empty. -/
theorem ofRecord_record (pick : Pick) :
    ofRecord (.mapping [(.text "tag", .text pick.tag), (.text "mutable", .bool pick.mutable)]) =
      if pick.tag = "" then .error .noTag else .ok pick := by
  rfl

end Pick

namespace Cache

variable {c after : Cache} {now : Int} {uri channel uri' channel' : String} {pick : Pick}

theorem readRecord_record (depth : Nat) (path : String) (pick : Pick) :
    (readRecord depth path pick.record.toList).outcome =
      .ok (if pick.tag = "" then none else some pick) := by
  have hplain : '\r' ∉ pick.record.toList := by
    intro hr
    exact absurd (pick.isPlain_record _ hr) (by decide)
  rw [readRecord, Text.unifyLineEnds_of_not_mem hplain, pick.readText_record depth]
  simp only [pick.ofRecord_record]
  by_cases htag : pick.tag = ""
  · simp [htag]
  · simp [htag, Report.ok]

theorem put_ok (h : c.put now uri channel pick = .ok after) :
    c.rootIsFile = false ∧
      after = c.fill uri channel
        { content := .file (Text.Utf8.encode pick.record.toList), stamp := now } := by
  unfold put at h
  split at h
  · cases h
  · rename_i hroot
    split at h
    · cases h
    · cases h
      exact ⟨by simpa using hroot, rfl⟩

theorem lookup_filter_gone {α : Type} (gone : String → Bool) (slots : List (String × α))
    (key : String) : (slots.filter fun (k, _) => !gone k).lookup key =
      if gone key then none else slots.lookup key := by
  induction slots with
  | nil => simp
  | cons head rest ih =>
    obtain ⟨k, slot⟩ := head
    by_cases hkey : key = k
    · subst hkey
      cases hgone : gone key <;> simp [hgone, ih]
    · have hother : (key == k) = false := by simpa using hkey
      cases hgone : gone k <;> simp [hgone, ih, List.lookup_cons, hother]

theorem lookup_filter_key {α : Type} {key other : String} (slots : List (String × α))
    (h : other ≠ key) :
    (slots.filter fun (k, _) => k != key).lookup other = slots.lookup other := by
  have hother : (other == key) = false := by simpa using h
  have hfilter := lookup_filter_gone (· == key) slots other
  rw [hother, if_neg Bool.false_ne_true] at hfilter
  exact hfilter

theorem slot?_fill (hroot : c.rootIsFile = false) (slot : Slot) :
    (c.fill uri channel slot).slot? uri' channel' =
      if cacheKey uri' channel' = cacheKey uri channel then some slot else c.slot? uri' channel' := by
  simp only [slot?, fill, hroot, Bool.false_eq_true, if_false]
  by_cases hkey : cacheKey uri' channel' = cacheKey uri channel
  · simp [hkey]
  · have hother : (cacheKey uri' channel' == cacheKey uri channel) = false := by simpa using hkey
    rw [if_neg hkey, List.lookup_cons, hother]
    exact lookup_filter_key c.slots hkey

def recordSlot (pick : Pick) (time : Int) : Slot where
  content := .file (Text.Utf8.encode pick.record.toList)
  stamp := time

theorem put_of_folder (hroot : c.rootIsFile = false)
    (hblocked : (c.slot? uri channel).map Slot.content = some .folder) :
    c.put now uri channel pick =
      .error (.cannotReplace (c.folderOf uri channel ++ "/.version_*") (c.pathOf uri channel)) := by
  rw [put, if_neg (by simp [hroot]), hblocked]

theorem put_of_free (hroot : c.rootIsFile = false)
    (hfree : (c.slot? uri channel).map Slot.content ≠ some .folder) :
    c.put now uri channel pick = .ok (c.fill uri channel (recordSlot pick now)) := by
  rw [put, if_neg (by simp [hroot])]
  split
  · exact absurd ‹_› hfree
  · rfl

theorem get_of_slot? {time : Int} (h : c.slot? uri channel = some (recordSlot pick time))
    (later : Int) :
    (c.get later uri channel).outcome =
      .ok (if later - time ≤ c.ttl ∧ pick.tag ≠ "" then some pick else none) := by
  rw [get, h, Option.filter_some, isFreshSlot, recordSlot]
  by_cases hfresh : later - time ≤ c.ttl
  · rw [decide_eq_true hfresh, if_pos rfl]
    dsimp only
    rw [Text.Utf8.decode_encode]
    dsimp only
    rw [readRecord_record]
    by_cases htag : pick.tag = "" <;> simp [htag, hfresh]
  · rw [decide_eq_false hfresh]
    simp [hfresh, Report.ok]

/-- A pick that was put is found until it expires. A pick without a tag is never found. -/
theorem get_of_put (h : c.put now uri channel pick = .ok after) (later : Int) :
    (after.get later uri channel).outcome =
      .ok (if later - now ≤ c.ttl ∧ pick.tag ≠ "" then some pick else none) := by
  obtain ⟨hroot, rfl⟩ := put_ok h
  have hslot : (c.fill uri channel (recordSlot pick now)).slot? uri channel =
      some (recordSlot pick now) := by
    rw [slot?_fill hroot, if_pos rfl]
  exact get_of_slot? hslot later

theorem get_of_put_ne (h : c.put now uri channel pick = .ok after)
    (hkey : cacheKey uri' channel' ≠ cacheKey uri channel) (later : Int) :
    after.get later uri' channel' = c.get later uri' channel' := by
  obtain ⟨hroot, rfl⟩ := put_ok h
  rw [get, get, slot?_fill hroot, if_neg hkey]
  rfl

theorem fresh_of_get (h : (c.get now uri channel).outcome = .ok (some pick)) :
    ∃ slot, c.slot? uri channel = some slot ∧ c.isFreshSlot now slot = true := by
  cases hfresh : (c.slot? uri channel).filter (c.isFreshSlot now) with
  | none =>
    rw [get, hfresh] at h
    cases h
  | some slot => exact ⟨slot, Option.filter_eq_some_iff.mp hfresh⟩

theorem get_of_fresh_again {slot : Slot} {time : Int} (hslot : c.slot? uri channel = some slot)
    (hnow : c.isFreshSlot now slot = true) (htime : c.isFreshSlot time slot = true) :
    c.get time uri channel = c.get now uri channel := by
  rw [get, get, hslot, Option.filter_some, Option.filter_some, if_pos hnow, if_pos htime]

theorem get_unique {time : Int} {found : Pick}
    (h : (c.get now uri channel).outcome = .ok (some pick))
    (htime : (c.get time uri channel).outcome = .ok (some found)) : found = pick := by
  obtain ⟨slot, hslot, hfresh⟩ := fresh_of_get h
  obtain ⟨_, hslot', hagain⟩ := fresh_of_get htime
  rw [hslot, Option.some.injEq] at hslot'
  subst hslot'
  rw [get_of_fresh_again hslot hfresh hagain, h] at htime
  simpa using htime.symm

def keyText (uri channel : String) : List Char :=
  uri.toList ++ Char.ofNat 0 :: channel.toList

/-- Repositories with channels whose picks are kept apart: no repository holds the separator, and
different texts have different digests. -/
structure KeysApart (places : List (String × String)) : Prop where
  separated : ∀ place ∈ places, Char.ofNat 0 ∉ place.1.toList
  digested : ∀ place ∈ places, ∀ other ∈ places,
    cacheKey place.1 place.2 = cacheKey other.1 other.2 →
      keyText place.1 place.2 = keyText other.1 other.2

instance (places : List (String × String)) : Decidable (KeysApart places) :=
  decidable_of_iff
    ((∀ place ∈ places, Char.ofNat 0 ∉ place.1.toList) ∧
      ∀ place ∈ places, ∀ other ∈ places, cacheKey place.1 place.2 = cacheKey other.1 other.2 →
        keyText place.1 place.2 = keyText other.1 other.2)
    ⟨fun h => ⟨h.1, h.2⟩, fun h => ⟨h.1, h.2⟩⟩

theorem KeysApart.mono {places others : List (String × String)} (h : KeysApart places)
    (hall : ∀ place ∈ others, place ∈ places) : KeysApart others where
  separated := fun place hplace => h.separated place (hall place hplace)
  digested := fun place hplace other hother =>
    h.digested place (hall place hplace) other (hall other hother)

theorem eq_of_append_cons {α : Type} {a : α} {xs ys xs' ys' : List α} (hxs : a ∉ xs)
    (hxs' : a ∉ xs') (h : xs ++ a :: ys = xs' ++ a :: ys') : xs = xs' ∧ ys = ys' := by
  induction xs generalizing xs' with
  | nil =>
    cases xs' with
    | nil => exact ⟨rfl, (List.cons.inj h).2⟩
    | cons x xs' =>
      rw [List.nil_append, List.cons_append, List.cons.injEq] at h
      exact absurd (h.1 ▸ List.mem_cons_self) hxs'
  | cons x xs ih =>
    cases xs' with
    | nil =>
      rw [List.nil_append, List.cons_append, List.cons.injEq] at h
      exact absurd (h.1 ▸ List.mem_cons_self) hxs
    | cons x' xs' =>
      rw [List.cons_append, List.cons_append, List.cons.injEq] at h
      obtain ⟨rfl, hys⟩ := ih (fun ha => hxs (List.mem_cons_of_mem _ ha))
        (fun ha => hxs' (List.mem_cons_of_mem _ ha)) h.2
      exact ⟨by rw [h.1], hys⟩

theorem KeysApart.eq_of_cacheKey {places : List (String × String)} (h : KeysApart places)
    (hplace : (uri, channel) ∈ places) (hother : (uri', channel') ∈ places)
    (hkey : cacheKey uri channel = cacheKey uri' channel') : uri = uri' ∧ channel = channel' := by
  obtain ⟨huri, hchannel⟩ := eq_of_append_cons (h.separated _ hplace) (h.separated _ hother)
    (h.digested _ hplace _ hother hkey)
  exact ⟨String.toList_inj.mp huri, String.toList_inj.mp hchannel⟩

end Cache

end ModulePins
