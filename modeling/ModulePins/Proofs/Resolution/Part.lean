import ModulePins.Proofs.Resolution.Lockstep
import ModulePins.Proofs.Resolution.Steady

/-!
# Parts of a run

The part of a run that concerns some of the names has the tasks and entries of these names, in the
same order, and a cache that holds the same under their keys. Dealing with one of the names comes to
the same in the run and in its part.
-/

namespace ModulePins

namespace Cache

variable {keys : String → Prop} {c d : Cache} {now : Int} {uri channel : String} {pick : Pick}

/-- Caches in the same folder that hold the same under some keys. -/
structure Alike (keys : String → Prop) (c d : Cache) : Prop where
  root : d.root = c.root
  rootIsFile : d.rootIsFile = c.rootIsFile
  ttl : d.ttl = c.ttl
  depth : d.depth = c.depth
  slots : ∀ key, keys key → d.slots.lookup key = c.slots.lookup key

theorem Alike.refl (keys : String → Prop) (c : Cache) : Alike keys c c :=
  ⟨rfl, rfl, rfl, rfl, fun _ _ => rfl⟩

theorem Alike.slot? (h : Alike keys c d) (hkey : keys (cacheKey uri channel)) :
    d.slot? uri channel = c.slot? uri channel := by
  simp only [Cache.slot?, h.rootIsFile, h.slots _ hkey]

theorem Alike.get (h : Alike keys c d) (hkey : keys (cacheKey uri channel)) (now : Int) :
    d.get now uri channel = c.get now uri channel := by
  have hfresh : d.isFreshSlot now = c.isFreshSlot now := by
    funext slot
    rw [isFreshSlot, isFreshSlot, h.ttl]
  have hpath : d.pathOf uri channel = c.pathOf uri channel := by
    rw [pathOf, pathOf, folderOf, folderOf, h.root]
  rw [Cache.get, Cache.get, h.slot? hkey, hfresh, hpath, h.depth]

theorem lookup_fill (c : Cache) (uri channel : String) (slot : Slot) (key : String) :
    (c.fill uri channel slot).slots.lookup key =
      if key = cacheKey uri channel then some slot else c.slots.lookup key := by
  by_cases hkey : key = cacheKey uri channel
  · simp [fill, hkey]
  · have hother : (key == cacheKey uri channel) = false := by simpa using hkey
    rw [if_neg hkey, fill, List.lookup_cons, hother]
    exact lookup_filter_key c.slots hkey

theorem Alike.put (h : Alike keys c d) (hkey : keys (cacheKey uri channel)) :
    (∃ fault, c.put now uri channel pick = .error fault ∧
      d.put now uri channel pick = .error fault) ∨
    ∃ c' d', c.put now uri channel pick = .ok c' ∧ d.put now uri channel pick = .ok d' ∧
      Alike keys c' d' := by
  have hfolder : d.folderOf uri channel = c.folderOf uri channel := by
    rw [folderOf, folderOf, h.root]
  have hpath : d.pathOf uri channel = c.pathOf uri channel := by rw [pathOf, pathOf, hfolder]
  unfold Cache.put
  rw [h.rootIsFile, h.slot? hkey, hfolder, hpath]
  split
  · exact .inl ⟨_, rfl, rfl⟩
  · split
    · exact .inl ⟨_, rfl, rfl⟩
    · refine .inr ⟨_, _, rfl, rfl, h.root, h.rootIsFile, h.ttl, h.depth, fun key hk => ?_⟩
      rw [lookup_fill, lookup_fill, h.slots key hk]

theorem Alike.put_other {c' : Cache} (h : Alike keys c d) (hkey : ¬keys (cacheKey uri channel))
    (hput : c.put now uri channel pick = .ok c') : Alike keys c' d := by
  obtain ⟨_, rfl⟩ := put_ok hput
  refine ⟨h.root, h.rootIsFile, h.ttl, h.depth, fun key hk => ?_⟩
  have hne : key ≠ cacheKey uri channel := fun heq => hkey (heq ▸ hk)
  rw [lookup_fill, if_neg hne, h.slots key hk]

end Cache

namespace Agenda

variable {p : String → Bool} {a b : Agenda} {name : String}

/-- The part of an agenda that concerns some names. -/
structure Part (p : String → Bool) (a b : Agenda) : Prop where
  tasks : b.tasks = a.tasks.filter fun task => p task.requirement.name
  order : b.order = a.order.filter p
  find : ∀ name, p name = true → b.find? name = a.find? name
  replacements : b.replacements = a.replacements

theorem Part.uriOf (h : a.Part p b) (name : String) : b.uriOf name = a.uriOf name :=
  uriOf_congr h.replacements name

theorem Part.history (h : a.Part p b) (hname : p name = true) :
    b.history name = a.history name := by
  rw [Agenda.history, Agenda.history, h.find name hname]

theorem Part.rest (h : a.Part p b) (rest : List Task) :
    Part p { a with tasks := rest }
      { b with tasks := rest.filter fun task => p task.requirement.name } :=
  ⟨rfl, h.order, h.find, h.replacements⟩

theorem filter_order_meet (a : Agenda) (hname : p name = false) :
    (a.meet name).order.filter p = a.order.filter p := by
  unfold meet
  split
  · rfl
  · simp [hname]

theorem Part.meet (h : a.Part p b) (hname : p name = true) :
    (a.meet name).Part p (b.meet name) where
  tasks := by rw [tasks_meet, tasks_meet, h.tasks]
  order := by
    have hmem : b.order.contains name = a.order.contains name := by
      rw [h.order, Bool.eq_iff_iff]
      simp [hname]
    unfold Agenda.meet
    rw [hmem]
    split
    · exact h.order
    · simp [h.order, hname]
  find := fun other hother => by rw [find?_meet, find?_meet, h.find other hother]
  replacements := by rw [replacements_meet, replacements_meet, h.replacements]

theorem Part.update (h : a.Part p b) (hname : p name = true) (f : Entry → Entry) :
    (a.update name f).Part p (b.update name f) where
  tasks := h.tasks
  order := h.order
  find := fun other hother => by
    rw [find?_update, find?_update, h.find other hother, h.find name hname]
  replacements := h.replacements

theorem Part.append (h : a.Part p b) {more : List Task}
    (hmore : ∀ task ∈ more, p task.requirement.name = true) :
    Part p { a with tasks := a.tasks ++ more } { b with tasks := b.tasks ++ more } where
  tasks := by
    rw [h.tasks, List.filter_append, List.filter_eq_self.mpr hmore]
  order := h.order
  find := h.find
  replacements := h.replacements

end Agenda

namespace Run

variable {s : Surroundings} {r r' t : Run} {p : String → Bool} {keys : String → Prop}
variable {serve : Fetch → Except Failure ModuleManifest}

/-- The part of a run that concerns some names, with what the cache holds under the keys of
theirs. -/
structure Part (p : String → Bool) (keys : String → Prop) (r t : Run) : Prop where
  agenda : r.agenda.Part p t.agenda
  workers : t.workers = r.workers
  failure : t.failure = r.failure
  cache : Cache.Alike keys r.cache t.cache

structure PartWith {α : Type} (p : String → Bool) (keys : String → Prop) (x y : Run × α) :
    Prop where
  part : Part p keys x.1 y.1
  outcome : y.2 = x.2

section Own

variable {m : PinnedModule} {name uri : String} {history : History}

theorem Part.askVersion (hstateless : s.versions.Stateless) (h : Part p keys r t)
    (hkey : keys (cacheKey uri history.channel)) :
    PartWith p keys (askVersion s r name uri history) (askVersion s t name uri history) := by
  unfold Run.askVersion
  dsimp only
  rw [hstateless r.queries, hstateless t.queries]
  split
  · exact ⟨{ h with }, rfl⟩
  · rcases h.cache.put hkey with ⟨fault, hput, hput'⟩ | ⟨after, after', hput, hput', halike⟩
    · rw [hput, hput']
      exact ⟨{ h with }, rfl⟩
    · rw [hput, hput']
      exact ⟨{ h with cache := halike }, rfl⟩

theorem Part.lookUpVersion (hstateless : s.versions.Stateless) (h : Part p keys r t)
    (hkey : keys (cacheKey uri history.channel)) :
    PartWith p keys (lookUpVersion s r name uri history) (lookUpVersion s t name uri history) := by
  unfold Run.lookUpVersion
  dsimp only
  rw [h.cache.get hkey]
  have hnoted : Part p keys
      { r with notices := r.notices ++ (r.cache.get s.now uri history.channel).notices }
      { t with notices := t.notices ++ (r.cache.get s.now uri history.channel).notices } :=
    { h with }
  split
  · exact ⟨hnoted, rfl⟩
  · exact hnoted.askVersion hstateless hkey
  · split
    · exact ⟨hnoted, rfl⟩
    · exact hnoted.askVersion hstateless hkey

theorem Part.choosePick {item : Item} (hstateless : s.versions.Stateless) (h : Part p keys r t)
    (hname : p item.name = true)
    (hkey : Location.isLocal uri = false →
      keys (cacheKey uri (r.agenda.history item.name).channel)) :
    PartWith p keys (choosePick s r item uri) (choosePick s t item uri) := by
  unfold Run.choosePick
  dsimp only
  rw [h.agenda.history hname, h.agenda.find item.name hname]
  split
  · exact ⟨h, rfl⟩
  · split
    · exact ⟨{ h with }, rfl⟩
    · split
      · exact ⟨h, rfl⟩
      · rename_i hremote
        exact h.lookUpVersion hstateless (hkey (by simpa using hremote))

theorem Part.withChosen (h : Part p keys r t) (hname : p m.name = true) (pick : Pick) :
    Part p keys (r.withChosen m pick) (t.withChosen m pick) :=
  { h with
    agenda := h.agenda.update hname fun e => { e with pick := some pick, chosen := some m } }

theorem Part.marked (h : Part p keys r t) (hname : p m.name = true) :
    Part p keys (r.marked m) (t.marked m) :=
  { h with agenda := h.agenda.update hname fun e => { e with expanded := some m } }

theorem Part.fetchManifest (hserve : s.Serves serve) (h : Part p keys r t) (m : PinnedModule) :
    PartWith p keys (fetchManifest s r m) (fetchManifest s t m) := by
  unfold Run.fetchManifest
  dsimp only
  rw [hserve, hserve]
  split
  · exact ⟨{ h with }, rfl⟩
  · split
    · exact ⟨{ h with }, rfl⟩
    · exact ⟨{ h with }, rfl⟩

theorem fetchManifest_ok (hserve : s.Serves serve) {manifest : ModuleManifest}
    (h : (fetchManifest s r m).2 = .ok manifest) :
    serve m.fetch = .ok manifest ∧ manifest.name = m.name := by
  unfold Run.fetchManifest at h
  dsimp only at h
  rw [hserve] at h
  split at h
  · cases h
  · rename_i hserved
    split at h
    · rename_i hname
      cases h
      exact ⟨hserved, hname⟩
    · cases h

theorem PartWith.concluded {x y : Run × Except Failure ModuleManifest} (h : PartWith p keys x y)
    (hlisted : ∀ manifest, x.2 = .ok manifest → ∀ q ∈ manifest.modules, p q.name = true) :
    Part p keys (concluded m x) (concluded m y) := by
  obtain ⟨r, outcome⟩ := x
  obtain ⟨t, outcome'⟩ := y
  obtain ⟨hpart, rfl⟩ := h
  cases outcome' with
  | error failure => exact { hpart with failure := rfl }
  | ok manifest =>
    refine { hpart with agenda := hpart.agenda.append ?_ }
    intro task htask
    obtain ⟨q, hq, rfl⟩ := List.mem_map.mp htask
    exact hlisted manifest rfl q hq

theorem Part.expand (hserve : s.Serves serve) (h : Part p keys r t) (hname : p m.name = true)
    (hlisted : ∀ manifest, serve m.fetch = .ok manifest → manifest.name = m.name →
      ∀ q ∈ manifest.modules, p q.name = true) :
    Part p keys (expand s r m) (expand s t m) := by
  have hfind := h.agenda.find m.name hname
  by_cases hknown : (r.agenda.find? m.name).bind Entry.expanded = some m
  · rw [Run.expand, Run.expand, hfind, if_pos hknown, if_pos hknown]
    exact h
  · rw [expand_of_new hknown, expand_of_new (by rwa [hfind])]
    refine ((h.marked hname).fetchManifest hserve m).concluded ?_
    intro manifest hok
    obtain ⟨hserved, hown⟩ := fetchManifest_ok hserve hok
    exact hlisted manifest hserved hown

end Own

end Run

end ModulePins
