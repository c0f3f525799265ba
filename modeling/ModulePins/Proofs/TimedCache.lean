import ModulePins.Cache.Folder
import ModulePins.Proofs.Cache

/-!
# The cache as a timed map

A cache on disk that starts out empty is a map from repositories and channels to picks, each of
which expires when its time has passed. Whatever is put, and however the clock moves, a look into
the cache gives the last pick for the repository and channel or nothing, and the folder of an entry
holds the record and nothing else.
-/

namespace ModulePins

namespace CacheFolder

variable {folder : CacheFolder} {place mark : String} {marks : List String} {bytes : List UInt8}
variable {now : Int}

theorem draftName_ne_recordName (mark : String) : draftName mark ≠ recordName := by
  intro h
  have hhead := congrArg (fun s => s.toList.head?) h
  rw [draftName, String.toList_append] at hhead
  cases hhead

theorem lookup_eq_none {name : String} :
    folder.lookup name = none ↔ ∀ entry ∈ folder, entry.1 ≠ name := by
  rw [List.lookup_eq_none_iff]
  refine forall₂_congr fun entry _ => ?_
  rw [bne_iff_ne, ne_comm]

theorem remove_of_free {name : String} (h : folder.lookup name = none) :
    folder.remove name = folder := by
  refine List.filter_eq_self.mpr ?_
  rintro ⟨k, slot⟩ hentry
  simpa using lookup_eq_none.mp h _ hentry

theorem remove_cons_self {name : String} (h : folder.lookup name = none) (slot : Slot) :
    CacheFolder.remove ((name, slot) :: folder) name = folder := by
  rw [← remove_of_free h]
  simp [remove]

theorem remove_cons_of_ne {name other : String} (h : other ≠ name) (slot : Slot) :
    CacheFolder.remove ((other, slot) :: folder) name = (other, slot) :: folder.remove name := by
  simp [remove, h]

theorem write_create {name : String} (h : folder.lookup name = none) :
    (folder.create name now).write name bytes now =
      (name, { content := .file bytes, stamp := now }) :: folder := by
  have hothers : folder.write name bytes now = folder := by
    refine (List.map_congr_left ?_).trans (List.map_id folder)
    rintro ⟨k, slot⟩ hentry
    exact if_neg (lookup_eq_none.mp h _ hentry)
  have hhead : (folder.create name now).write name bytes now =
      (name, { content := .file bytes, stamp := now }) :: folder.write name bytes now := by
    simp [create, write]
  rw [hhead, hothers]

theorem rename_ok {source target : String} {slot : Slot}
    (hsource : folder.lookup source = some slot)
    (hfile : (folder.lookup target).map Slot.content ≠ some .folder) :
    folder.rename source target = some ((target, slot) :: (folder.remove source).remove target) := by
  unfold rename
  rw [hsource]
  split
  · rename_i hnone
    cases hnone
  · rename_i hfolder
    exact absurd hfolder hfile
  · rename_i hsome _
    cases hsome
    rfl

theorem find?_free (others : List String) (h : folder.lookup (draftName mark) = none) :
    (mark :: others).find? (fun mark => (folder.lookup (draftName mark)).isNone) = some mark := by
  simp [h]

section Keep

variable (hmark : marks.find? (fun mark => (folder.lookup (draftName mark)).isNone) = some mark)
include hmark

theorem keep_of_rename {renamed : CacheFolder}
    (h : CacheFolder.rename ((draftName mark, { content := .file bytes, stamp := now }) :: folder)
      (draftName mark) recordName = some renamed) :
    folder.keep place marks bytes now = (renamed.remove (draftName mark), .ok ()) := by
  have hfree : folder.lookup (draftName mark) = none := by
    simpa using List.find?_some hmark
  unfold keep
  simp only [hmark, write_create hfree, h]

/-- A record takes the place of what was there, unless that is a folder, and nothing else in the
folder changes. -/
theorem keep_ok (hfile : (folder.lookup recordName).map Slot.content ≠ some .folder) :
    folder.keep place marks bytes now =
      ((recordName, { content := .file bytes, stamp := now }) :: folder.remove recordName,
        .ok ()) := by
  have hfree : folder.lookup (draftName mark) = none := by
    simpa using List.find?_some hmark
  have hbeq : (recordName == draftName mark) = false := by
    simpa using (draftName_ne_recordName mark).symm
  have hgone : (folder.remove recordName).lookup (draftName mark) = none :=
    lookup_eq_none.mpr fun entry hentry =>
      lookup_eq_none.mp hfree entry (List.mem_filter.mp hentry).1
  rw [keep_of_rename hmark (rename_ok List.lookup_cons_self (by rwa [List.lookup_cons, hbeq])),
    remove_cons_self hfree, remove_cons_of_ne (draftName_ne_recordName mark).symm,
    remove_of_free hgone]

end Keep

end CacheFolder

namespace CacheDisk

open CacheFolder

variable {d : CacheDisk} {uri channel uri' channel' : String} {pick : Pick} {marks : List String}
variable {now : Int}

/-- A disk as caches leave it: every folder holds a record and nothing else. -/
structure IsTidy (d : CacheDisk) : Prop where
  root : d.rootIsFile = false
  records : ∀ entry ∈ d.folders, ∃ slot, slot.content ≠ .folder ∧ entry.2 = [(recordName, slot)]

def withRecord (d : CacheDisk) (uri channel : String) (slot : Slot) : CacheDisk :=
  { d with
    folders := (cacheKey uri channel, [(recordName, slot)]) ::
      d.folders.filter fun (k, _) => k != cacheKey uri channel }

theorem IsTidy.folder? (h : d.IsTidy) {folder : CacheFolder}
    (hfolder : d.folder? uri channel = some folder) :
    ∃ slot, slot.content ≠ .folder ∧ folder = [(recordName, slot)] := by
  obtain ⟨_, _, hsplit, _⟩ := List.lookup_eq_some_iff.mp hfolder
  exact h.records (cacheKey uri channel, folder) (by rw [hsplit]; simp)

theorem IsTidy.withRecord (h : d.IsTidy) (uri channel : String) {slot : Slot}
    (hslot : slot.content ≠ .folder) : (d.withRecord uri channel slot).IsTidy where
  root := h.root
  records := by
    intro entry hentry
    rcases List.mem_cons.mp hentry with rfl | hrest
    · exact ⟨slot, hslot, rfl⟩
    · exact h.records entry (List.mem_filter.mp hrest).1

/-- On a tidy disk a pick can always be kept. -/
theorem put_of_tidy (h : d.IsTidy) (hmarks : marks ≠ []) :
    d.put marks now uri channel pick =
      (d.withRecord uri channel (Cache.recordSlot pick now), .ok ()) := by
  obtain ⟨mark, others, rfl⟩ := List.exists_cons_of_ne_nil hmarks
  have hbeq : (draftName mark == recordName) = false := by
    simpa using draftName_ne_recordName mark
  have hkept : ((d.folder? uri channel).getD []).keep (d.cache.folderOf uri channel) (mark :: others)
      (Text.Utf8.encode pick.record.toList) now =
        ([(recordName, Cache.recordSlot pick now)], .ok ()) := by
    cases hfolder : d.folder? uri channel with
    | none =>
      rw [Option.getD_none]
      exact keep_ok (find?_free others rfl) (by simp)
    | some folder =>
      obtain ⟨slot, hslot, rfl⟩ := h.folder? hfolder
      rw [Option.getD_some, keep_ok (find?_free others (by simp [List.lookup_cons, hbeq])) (by simpa)]
      simp [remove, Cache.recordSlot]
  unfold put
  simp only [h.root, Bool.false_eq_true, if_false, hkept, withRecord]

theorem folder?_withRecord (d : CacheDisk) (uri channel : String) (slot : Slot) :
    (d.withRecord uri channel slot).folder? uri' channel' =
      if cacheKey uri' channel' = cacheKey uri channel then some [(recordName, slot)]
      else d.folder? uri' channel' := by
  unfold folder? CacheDisk.withRecord
  by_cases hkey : cacheKey uri' channel' = cacheKey uri channel
  · simp [hkey]
  · have hbeq : (cacheKey uri' channel' == cacheKey uri channel) = false := by simpa using hkey
    rw [if_neg hkey, List.lookup_cons, hbeq]
    exact Cache.lookup_filter_key d.folders hkey

theorem IsTidy.slot?_cache (h : d.IsTidy) :
    d.cache.slot? uri channel = (d.folder? uri channel).bind (List.lookup recordName) := by
  have hrecords := h.records
  unfold Cache.slot? cache CacheDisk.folder?
  simp only [h.root, Bool.false_eq_true, if_false]
  generalize d.folders = folders at hrecords
  induction folders with
  | nil => rfl
  | cons head rest ih =>
    obtain ⟨key, folder⟩ := head
    obtain ⟨slot, _, rfl⟩ := hrecords _ List.mem_cons_self
    have hrest := ih fun entry hentry => hrecords entry (List.mem_cons_of_mem _ hentry)
    by_cases hkey : cacheKey uri channel = key
    · simp [hkey]
    · have hbeq : (cacheKey uri channel == key) = false := by simpa using hkey
      simpa [List.lookup_cons, hbeq] using hrest

theorem cache_withRecord (d : CacheDisk) (uri channel : String) (slot : Slot) :
    (d.withRecord uri channel slot).cache = d.cache.fill uri channel slot := by
  unfold cache CacheDisk.withRecord Cache.fill
  simp only [List.filterMap_cons, List.lookup_cons_self, Option.map_some, List.filterMap_filter,
    List.filter_filterMap]
  congr 3
  funext entry
  cases entry.2.lookup recordName with
  | none => simp
  | some slot =>
    by_cases hkey : entry.1 = cacheKey uri channel <;> simp [Option.filter_some, hkey]

/-- Keeping a pick on a tidy disk is what keeping it in the cache is said to be. -/
theorem cache_put (h : d.IsTidy) (hmarks : marks ≠ []) :
    d.cache.put now uri channel pick = .ok (d.put marks now uri channel pick).1.cache := by
  have hfile : (d.cache.slot? uri channel).map Slot.content ≠ some .folder := by
    rw [h.slot?_cache]
    cases hfolder : d.folder? uri channel with
    | none => simp
    | some folder =>
      obtain ⟨slot, hslot, rfl⟩ := h.folder? hfolder
      simpa using hslot
  rw [put_of_tidy h hmarks, cache_withRecord]
  unfold Cache.put
  rw [if_neg (by simp [cache, h.root])]
  split
  · exact absurd ‹_› hfile
  · rfl

end CacheDisk

/-- What is done with a cache. The clock may be moved to any time. -/
inductive CacheCall where
  | put (marks : List String) (uri channel : String) (pick : Pick)
  | setClock (now : Int)
  | get (uri channel : String)
  | isFresh (uri channel : String)

inductive CacheAnswer where
  | kept (outcome : Except FileFault Unit)
  | clock
  | found (outcome : Except Failure (Option Pick))
  | fresh (isFresh : Bool)

def CacheCall.place? : CacheCall → Option (String × String)
  | put _ uri channel _ => some (uri, channel)
  | setClock _ => none
  | get uri channel => some (uri, channel)
  | isFresh uri channel => some (uri, channel)

/-- A call that keeps nothing, or a pick with a tag, under a name that can be found. -/
def CacheCall.IsProper : CacheCall → Prop
  | put marks _ _ pick => marks ≠ [] ∧ pick.tag ≠ ""
  | _ => True

/-- A cache on disk, and what time it is. -/
structure CacheState where
  disk : CacheDisk
  now : Int

namespace CacheState

def call (s : CacheState) : CacheCall → CacheState × CacheAnswer
  | .put marks uri channel pick =>
    let (disk, outcome) := s.disk.put marks s.now uri channel pick
    ({ s with disk }, .kept outcome)
  | .setClock now => ({ s with now }, .clock)
  | .get uri channel => (s, .found (s.disk.cache.get s.now uri channel).outcome)
  | .isFresh uri channel => (s, .fresh (s.disk.cache.isFresh s.now uri channel))

def calls (s : CacheState) : List CacheCall → CacheState × List CacheAnswer
  | [] => (s, [])
  | c :: rest =>
    let (last, answers) := (s.call c).1.calls rest
    (last, (s.call c).2 :: answers)

end CacheState

/-- A map from repositories and channels to picks and the times at which they were put. -/
structure TimedMap where
  ttl : Int
  now : Int
  last : String → String → Option (Pick × Int)

namespace TimedMap

/-- The last pick that was put, if it was not put too long before a time. -/
def pickAt (m : TimedMap) (time : Int) (uri channel : String) : Option Pick :=
  (m.last uri channel).bind fun (pick, since) => if time - since ≤ m.ttl then some pick else none

def put (m : TimedMap) (uri channel : String) (pick : Pick) : TimedMap :=
  { m with
    last := fun uri' channel' =>
      if (uri', channel') = (uri, channel) then some (pick, m.now) else m.last uri' channel' }

def call (m : TimedMap) : CacheCall → TimedMap × CacheAnswer
  | .put _ uri channel pick => (m.put uri channel pick, .kept (.ok ()))
  | .setClock now => ({ m with now }, .clock)
  | .get uri channel => (m, .found (.ok (m.pickAt m.now uri channel)))
  | .isFresh uri channel => (m, .fresh (m.pickAt m.now uri channel).isSome)

def calls (m : TimedMap) : List CacheCall → TimedMap × List CacheAnswer
  | [] => (m, [])
  | c :: rest =>
    let (last, answers) := (m.call c).1.calls rest
    (last, (m.call c).2 :: answers)

end TimedMap

namespace CacheState

open CacheFolder

variable {places : List (String × String)} {s : CacheState} {m : TimedMap} {uri channel : String}

/-- A disk holds what a map says: in the folder of an entry lies the record of the last pick, and
nothing else. -/
structure Follows (places : List (String × String)) (s : CacheState) (m : TimedMap) : Prop where
  tidy : s.disk.IsTidy
  ttl : s.disk.ttl = m.ttl
  now : s.now = m.now
  folder : ∀ place ∈ places, s.disk.folder? place.1 place.2 =
    (m.last place.1 place.2).map fun (pick, time) => [(recordName, Cache.recordSlot pick time)]
  tagged : ∀ uri channel pick time, m.last uri channel = some (pick, time) → pick.tag ≠ ""

theorem Follows.slot? (h : s.Follows places m) (hplace : (uri, channel) ∈ places) :
    s.disk.cache.slot? uri channel =
      (m.last uri channel).map fun (pick, time) => Cache.recordSlot pick time := by
  rw [h.tidy.slot?_cache, h.folder _ hplace]
  cases m.last uri channel <;> simp

/-- A look into the cache at any time finds the last pick, if it has not expired. -/
theorem Follows.get (h : s.Follows places m) (hplace : (uri, channel) ∈ places) (time : Int) :
    (s.disk.cache.get time uri channel).outcome = .ok (m.pickAt time uri channel) := by
  have hslot := h.slot? hplace
  unfold TimedMap.pickAt
  cases hlast : m.last uri channel with
  | none =>
    rw [hlast] at hslot
    simp [Cache.get, hslot, Report.ok]
  | some kept =>
    obtain ⟨pick, since⟩ := kept
    rw [hlast] at hslot
    have httl : s.disk.cache.ttl = m.ttl := h.ttl
    rw [Cache.get_of_slot? hslot, httl]
    simp [h.tagged _ _ _ _ hlast]

theorem Follows.isFresh (h : s.Follows places m) (hplace : (uri, channel) ∈ places) (time : Int) :
    s.disk.cache.isFresh time uri channel = (m.pickAt time uri channel).isSome := by
  unfold Cache.isFresh TimedMap.pickAt
  rw [h.slot? hplace]
  cases m.last uri channel with
  | none => rfl
  | some kept =>
    obtain ⟨pick, since⟩ := kept
    change decide (time - since ≤ s.disk.ttl) = _
    rw [h.ttl]
    by_cases hfresh : time - since ≤ m.ttl
    · simp only [decide_eq_true hfresh, Option.bind_some, if_pos hfresh, Option.isSome_some]
    · simp only [decide_eq_false hfresh, Option.bind_some, if_neg hfresh, Option.isSome_none]

theorem Follows.put (hapart : Cache.KeysApart places) (h : s.Follows places m)
    (hplace : (uri, channel) ∈ places) {pick : Pick} (htag : pick.tag ≠ "") :
    Follows places { s with disk := s.disk.withRecord uri channel (Cache.recordSlot pick s.now) }
      (m.put uri channel pick) where
  tidy := h.tidy.withRecord uri channel (by simp [Cache.recordSlot])
  ttl := h.ttl
  now := h.now
  folder := by
    rintro ⟨uri', channel'⟩ hother
    rw [CacheDisk.folder?_withRecord, TimedMap.put]
    dsimp only
    -- The record goes into the folder of the key, and no other place has this key.
    by_cases hsame : (uri', channel') = (uri, channel)
    · obtain ⟨rfl, rfl⟩ := Prod.mk.inj hsame
      rw [if_pos rfl, if_pos rfl, h.now]
      rfl
    · have hkey : cacheKey uri' channel' ≠ cacheKey uri channel := by
        intro hkey
        obtain ⟨rfl, rfl⟩ := hapart.eq_of_cacheKey hother hplace hkey
        exact hsame rfl
      rw [if_neg hkey, if_neg hsame, h.folder _ hother]
  tagged := by
    intro uri' channel' pick' time hlast
    unfold TimedMap.put at hlast
    dsimp only at hlast
    split at hlast
    · cases hlast
      exact htag
    · exact h.tagged _ _ _ _ hlast

theorem Follows.call (hapart : Cache.KeysApart places) (h : s.Follows places m) {c : CacheCall}
    (hplace : ∀ place ∈ c.place?, place ∈ places) (hproper : c.IsProper) :
    (s.call c).1.Follows places (m.call c).1 ∧ (s.call c).2 = (m.call c).2 := by
  cases c with
  | put marks uri channel pick =>
    have hput : s.disk.put marks s.now uri channel pick =
        (s.disk.withRecord uri channel (Cache.recordSlot pick s.now), .ok ()) :=
      CacheDisk.put_of_tidy h.tidy hproper.1
    simp only [CacheState.call, hput, TimedMap.call]
    exact ⟨h.put hapart (hplace _ rfl) hproper.2, trivial⟩
  | setClock now =>
    exact ⟨{ h with now := rfl }, rfl⟩
  | get uri channel =>
    exact ⟨h, congrArg CacheAnswer.found (h.now ▸ h.get (hplace _ rfl) s.now)⟩
  | isFresh uri channel =>
    exact ⟨h, congrArg CacheAnswer.fresh (h.now ▸ h.isFresh (hplace _ rfl) s.now)⟩

theorem Follows.calls (hapart : Cache.KeysApart places) (h : s.Follows places m)
    {cs : List CacheCall} (hplaces : ∀ c ∈ cs, ∀ place ∈ c.place?, place ∈ places)
    (hproper : ∀ c ∈ cs, c.IsProper) :
    (s.calls cs).1.Follows places (m.calls cs).1 ∧ (s.calls cs).2 = (m.calls cs).2 := by
  induction cs generalizing s m with
  | nil => exact ⟨h, rfl⟩
  | cons c rest ih =>
    rw [List.forall_mem_cons] at hplaces hproper
    obtain ⟨hnext, hanswer⟩ := h.call hapart hplaces.1 hproper.1
    obtain ⟨hlast, hanswers⟩ := ih hnext hplaces.2 hproper.2
    exact ⟨hlast, List.cons_eq_cons.mpr ⟨hanswer, hanswers⟩⟩

def start (root : String) (ttl now : Int) : CacheState where
  disk := { root, ttl }
  now := now

theorem follows_start (places : List (String × String)) (root : String) (ttl now : Int) :
    Follows places (start root ttl now) { ttl, now, last := fun _ _ => none } where
  tidy := ⟨rfl, fun entry hentry => by cases hentry⟩
  ttl := rfl
  now := rfl
  folder := fun _ _ => rfl
  tagged := fun _ _ _ _ hlast => by cases hlast

/-- A cache that starts out empty answers as a timed map does, whatever is put into it and however
the clock moves. In the end every folder holds its record and nothing else, a look into the cache
finds the last pick if it has not expired, and putting a pick once more does what `Cache.put` says
and leaves all other places as they are. -/
theorem calls_follow_map {root : String} {ttl now : Int} {cs : List CacheCall}
    (hapart : Cache.KeysApart places) (hplaces : ∀ c ∈ cs, ∀ place ∈ c.place?, place ∈ places)
    (hproper : ∀ c ∈ cs, c.IsProper)
    (hs : s = ((start root ttl now).calls cs).1)
    (hm : m = (TimedMap.calls { ttl, now, last := fun _ _ => none } cs).1) :
    ((start root ttl now).calls cs).2 =
        (TimedMap.calls { ttl, now, last := fun _ _ => none } cs).2 ∧
      (∀ place ∈ places,
        (s.disk.folder? place.1 place.2).map CacheFolder.names =
            (m.last place.1 place.2).map (fun _ => ["version.json"]) ∧
          ∀ time, (s.disk.cache.get time place.1 place.2).outcome =
            .ok (m.pickAt time place.1 place.2)) ∧
      ∀ marks pick, marks ≠ [] → ∀ place ∈ places,
        s.disk.cache.put s.now place.1 place.2 pick =
            .ok (s.disk.put marks s.now place.1 place.2 pick).1.cache ∧
          ∀ other ∈ places, other ≠ place → ∀ time,
            (s.disk.put marks s.now place.1 place.2 pick).1.cache.get time other.1 other.2 =
              s.disk.cache.get time other.1 other.2 := by
  obtain ⟨hfollows, hanswers⟩ := (follows_start places root ttl now).calls hapart hplaces hproper
  rw [← hs, ← hm] at hfollows
  refine ⟨hanswers, ?_, ?_⟩
  · intro place hplace
    refine ⟨?_, hfollows.get hplace⟩
    rw [hfollows.folder place hplace, Option.map_map]
    rfl
  · intro marks pick hmarks place hplace
    have hput : s.disk.cache.put s.now place.1 place.2 pick =
        .ok (s.disk.put marks s.now place.1 place.2 pick).1.cache :=
      CacheDisk.cache_put hfollows.tidy hmarks
    refine ⟨hput, ?_⟩
    intro other hother hne time
    refine Cache.get_of_put_ne hput ?_ time
    intro hkey
    obtain ⟨huri, hchannel⟩ := hapart.eq_of_cacheKey hother hplace hkey
    exact hne (Prod.ext huri hchannel)

/-- Two picks for one place, the second of a tag that has to be escaped, and one for another
channel. -/
def movedCalls : List CacheCall :=
  [.put ["a"] "https://a" "" { tag := "v1.0.0" }, .setClock 5, .get "https://a" "",
    .put ["b"] "https://a" "rc" { tag := "main", mutable := true }, .get "https://a" "rc",
    .put ["c"] "https://a" "" { tag := "\"é😀\n" }, .setClock 16, .isFresh "https://a" "",
    .setClock 2, .get "https://a" ""]

/-- After all that the last pick for the stable channel is found until its time has passed. -/
theorem calls_follow_map_moved :
    (((start "/cache" 10 0).calls movedCalls).1.disk.cache.get 15 "https://a" "").outcome =
        .ok (some { tag := "\"é😀\n" }) ∧
      (((start "/cache" 10 0).calls movedCalls).1.disk.cache.get 16 "https://a" "").outcome =
        .ok none ∧
      (((start "/cache" 10 0).calls movedCalls).1.disk.folder? "https://a" "rc").map
        CacheFolder.names = some ["version.json"] := by
  have hapart : Cache.KeysApart [("https://a", ""), ("https://a", "rc")] :=
    ⟨by decide +kernel, by decide +kernel⟩
  have hplaces : ∀ c ∈ movedCalls, ∀ place ∈ c.place?,
      place ∈ [("https://a", ""), ("https://a", "rc")] := by
    simp [movedCalls, CacheCall.place?]
  have hproper : ∀ c ∈ movedCalls, c.IsProper := by
    simp [movedCalls, CacheCall.IsProper]
  have hs : ((start "/cache" 10 0).calls movedCalls).1 = ((start "/cache" 10 0).calls movedCalls).1 :=
    rfl
  obtain ⟨_, hfound, _⟩ := calls_follow_map hapart hplaces hproper hs rfl
  obtain ⟨⟨_, hstable⟩, ⟨hnames, _⟩⟩ :=
    And.intro (hfound ("https://a", "") (by simp)) (hfound ("https://a", "rc") (by simp))
  refine ⟨?_, ?_, ?_⟩
  · rw [hstable]
    exact congrArg Except.ok (by decide +kernel)
  · rw [hstable]
    exact congrArg Except.ok (by decide +kernel)
  · rw [hnames]
    decide +kernel

end CacheState

end ModulePins
