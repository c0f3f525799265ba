import ModulePins.Proofs.Resolution.Locators
import ModulePins.Proofs.Resolution.Succession

/-!
# Remote replacements

A replacement with a scheme other than that of files stays as it is: its module is fetched from
there, and its version is looked for in the cache or asked from the version source. The short form
of a repository has no scheme, and so it is taken for the path of a local folder.
-/

namespace ModulePins

namespace Run

variable {s t : Surroundings} {r r' start : Run} {source : VersionSource} {first cache : Cache}
variable {queries more : List Query} {uri channel name : String} {pick : Pick}

/-! ### Where picks come from -/

/-- The version source gave the pick in answer to one of the queries, and it is kept in the file of
the place. -/
def AnsweredFor (source : VersionSource) (queries : List Query) (uri channel : String)
    (pick : Pick) : Prop :=
  ∃ asked q, asked ++ [q] <+: queries ∧ cacheKey q.url q.channel = cacheKey uri channel ∧
    source asked q = .ok pick

/-- The pick was in the cache at first, or the version source gave it. -/
inductive Sought (source : VersionSource) (first : Cache) (queries : List Query) (uri : String)
    (pick : Pick) : Prop
  | kept {now : Int} {channel : String}
      (hget : (first.get now uri channel).outcome = .ok (some pick))
  | answered {channel : String} (h : AnsweredFor source queries uri channel pick)

/-- What the cache holds was there at first, or the version source gave it. -/
def Accounted (source : VersionSource) (first : Cache) (queries : List Query) (cache : Cache) :
    Prop :=
  ∀ now uri channel found, (cache.get now uri channel).outcome = .ok (some found) →
    (first.get now uri channel).outcome = .ok (some found) ∨
      AnsweredFor source queries uri channel found

theorem AnsweredFor.mono (h : AnsweredFor source queries uri channel pick)
    (hmore : queries <+: more) : AnsweredFor source more uri channel pick := by
  obtain ⟨asked, q, hasked, hkey, hanswer⟩ := h
  exact ⟨asked, q, hasked.trans hmore, hkey, hanswer⟩

theorem Sought.mono (h : Sought source first queries uri pick) (hmore : queries <+: more) :
    Sought source first more uri pick := by
  cases h with
  | kept hget => exact .kept hget
  | answered h => exact .answered (h.mono hmore)

theorem Accounted.mono (h : Accounted source first queries cache) (hmore : queries <+: more) :
    Accounted source first more cache :=
  fun now uri channel found hget => (h now uri channel found hget).imp_right (·.mono hmore)

section Picked

variable {after : Cache} {made : List Query} {before : Option Pick} {history : History}

theorem Picked.accounted (hcache : Accounted s.versions first queries cache)
    (h : Picked s cache queries uri before history pick after made) :
    Accounted s.versions first made after := by
  cases h with
  | stays _ _ => exact hcache
  | here _ _ => exact hcache
  | cached _ _ _ _ => exact hcache
  | asked _ _ _ _ hanswer hput =>
    intro now uri' channel' found hget
    rcases Cache.get_put_cases hput hget with ⟨hkey, rfl⟩ | hget
    · exact .inr ⟨queries, history.query uri, List.prefix_rfl, hkey, hanswer⟩
    · exact hcache.mono (List.prefix_append _ _) now uri' channel' found hget

theorem Picked.sought (hcache : Accounted s.versions first queries cache)
    (hremote : Location.isLocal uri = false)
    (hbefore : ∀ p, before = some p → Sought s.versions first queries uri p)
    (h : Picked s cache queries uri before history pick after made) :
    Sought s.versions first made uri pick := by
  cases h with
  | stays hwas _ => exact hbefore pick hwas
  | here _ hlocal => simp [hremote] at hlocal
  | cached _ _ hget _ =>
    rcases hcache _ _ _ _ hget with hkept | hanswered
    · exact .kept hkept
    · exact .answered hanswered
  | asked _ _ _ _ hanswer _ =>
    exact .answered ⟨queries, history.query uri, List.prefix_rfl, rfl, hanswer⟩

end Picked

/-- Picks for remote modules were looked for, and nothing is asked about local ones. -/
structure Seeks (source : VersionSource) (first : Cache) (r : Run) : Prop where
  accounted : Accounted source first r.queries r.cache
  sought : ∀ name e p, r.agenda.find? name = some e → e.given = false → e.pick = some p →
    Location.isLocal (r.agenda.uriOf name) = false →
      Sought source first r.queries (r.agenda.uriOf name) p
  remote : ∀ q ∈ r.queries, Location.isLocal q.url = false

theorem Turn.accounted (hr : Accounted s.versions first r.queries r.cache) (h : Turn s r r') :
    Accounted s.versions first r'.queries r'.cache := by
  cases h with
  | lost _ _ => exact hr
  | given _ _ _ _ _ _ h =>
    rw [h.queries, h.cache]
    exact hr
  | refused _ hrefused => exact hr.mono hrefused.queries
  | picked _ _ hpicked h =>
    rw [h.queries, h.cache]
    exact hpicked.accounted hr

theorem Turn.remote (hr : ∀ q ∈ r.queries, Location.isLocal q.url = false) (h : Turn s r r') :
    ∀ q ∈ r'.queries, Location.isLocal q.url = false := by
  have hnext : ∀ {uri : String} (history : History), Location.isLocal uri = false →
      ∀ q ∈ r.queries ++ [history.query uri], Location.isLocal q.url = false := by
    intro uri history hremote q hq
    rcases List.mem_append.mp hq with hq | hq
    · exact hr q hq
    · rw [List.mem_singleton.mp hq]
      exact hremote
  cases h with
  | lost _ _ => exact hr
  | given _ _ _ _ _ _ h =>
    rw [h.queries]
    exact hr
  | refused _ hrefused =>
    cases hrefused with
    | conflict _ _ _ => exact hr
    | unread _ _ _ => exact hr
    | unanswered _ hremote _ => exact hnext _ hremote
    | unwritten _ hremote => exact hnext _ hremote
  | picked _ _ hpicked h =>
    rw [h.queries]
    cases hpicked with
    | stays _ _ => exact hr
    | here _ _ => exact hr
    | cached _ _ _ _ => exact hr
    | asked _ hremote _ _ _ _ => exact hnext _ hremote

theorem Seeks.turn (hr : r.Seeks s.versions first) (h : Turn s r r') :
    r'.Seeks s.versions first where
  accounted := h.accounted hr.accounted
  remote := h.remote hr.remote
  sought := by
    intro name e p hfind hgiven hpick hremote
    rw [Agenda.uriOf_congr h.replacements] at hremote ⊢
    have hbefore := fun e p hfind hgiven hpick => hr.sought name e p hfind hgiven hpick hremote
    rcases h.find?_cases name with hfind' | ⟨old, _, _, hold, _, hfind'⟩ | ⟨_, _, _, before, htaken,
      rfl, ⟨_, hfind'⟩ | ⟨pick, hpicked, hfind'⟩⟩
    · exact (hbefore e p (hfind'.symm.trans hfind) hgiven hpick).mono h.queries_prefix
    · rw [hfind', Option.some.injEq] at hfind
      subst hfind
      simp [hold] at hgiven
    · rw [hfind', Option.some.injEq] at hfind
      subst hfind
      exact (htaken.pick_before hbefore p hpick).mono h.queries_prefix
    · rw [hfind', Option.some.injEq] at hfind
      subst hfind
      obtain rfl := Option.some.inj hpick
      exact hpicked.sought hr.accounted hremote (htaken.pick_before hbefore)

section Reachable

variable {goal : Goal} {given : List PinnedModule} {workers : Int} {base : Path}

theorem seeks_start {tasks : List Task} {replacements : List (String × String)} {workers : Nat} :
    Seeks source first
      { agenda := .start tasks replacements given base, cache := first, workers } where
  accounted := fun _ _ _ _ hget => .inl hget
  sought := by
    intro name e p hfind hgiven
    obtain ⟨_, _, _, rfl⟩ := Agenda.find?_start name tasks replacements given base e hfind
    cases hgiven
  remote := nofun

theorem seeks_reachable (hstart : Run.start goal given workers first base = .ok start)
    (h : Reachable s start t r) : r.Seeks s.versions first := by
  obtain ⟨_, rfl⟩ := start_ok hstart
  refine invariant_of_turn (P := fun r => r.Seeks s.versions first) (isSound_start _ _ _ _)
    seeks_start ?_ h
  intro now later r r' _ hr hturn
  exact Seeks.turn (s := { s with now, later }) hr hturn

end Reachable

end Run

namespace Location

variable {uri : String}

/-- The items of modules that are replaced by `uri` have the locator `place base` in the folder
`base`, unless the modules are given. -/
def FetchedFrom (uri : String) (place : Path → String) : Prop :=
  ∀ (base : Path) (tasks : List Task) (replacements : List (String × String))
    (given : List PinnedModule) (name : String) (cs : List Call) (item : Item),
    (Ledger.ofList replacements).get? name = some uri →
    some item ∈ (Agenda.start tasks replacements given base).answers cs → item.name = name →
      item.uri = if name ∈ given.map PinnedModule.name then none else some (place base)

/-- Whatever is chosen, in a run that began on the cache in the folder `base`, for a module that is
replaced by `uri` and not given: it is as `P` says. -/
def ChosenWith (uri : String)
    (P : Path → VersionSource → Cache → List Query → String → PinnedModule → Prop) : Prop :=
  ∀ ⦃goal : Goal⦄ ⦃given : List PinnedModule⦄ ⦃workers : Int⦄ ⦃cache : Cache⦄ ⦃base : Path⦄
    ⦃s t : Surroundings⦄ ⦃start r : Run⦄ ⦃name : String⦄ ⦃m : PinnedModule⦄,
    (Ledger.ofList goal.replacements).get? name = some uri →
    name ∉ (goal.injected given).map PinnedModule.name →
    Run.start goal given workers cache base = .ok start → Run.Reachable s start t r →
    (r.agenda.find? name).bind Entry.chosen = some m → P base s.versions cache r.queries name m

theorem fetchedFrom (uri : String) : FetchedFrom uri fun base => fetchUri uri base :=
  fun _ _ _ _ _ _ _ hreplaced hitem hname => Agenda.uri_of_replaced hreplaced hitem hname

/-! ### Replacements with a scheme -/

/-- A locator with a scheme other than that of files. -/
def IsSchemed (uri : String) : Prop :=
  ∃ scheme rest, scheme.head?.any Char.isAlpha = true ∧
    (∀ c ∈ scheme, Url.isSchemeChar c = true) ∧ scheme ≠ "file".toList ∧
    uri.toList = scheme ++ "://".toList ++ rest

theorem isLocal_of_isSchemed (h : IsSchemed uri) : isLocal uri = false := by
  obtain ⟨scheme, rest, _, hchars, hscheme, huri⟩ := h
  have hoccurs : ImportPath.occurs "://".toList uri.toList = true :=
    ImportPath.occurs_iff_infix.mpr ⟨scheme, rest, huri.symm⟩
  have hfile : isFileUri uri = false := by
    rw [← Bool.not_eq_true, isFileUri, List.isPrefixOf_iff_prefix, huri]
    rintro ⟨path, hpath⟩
    have hcolon : ':' ∉ scheme := fun hc => absurd (hchars ':' hc) (by decide)
    -- What stands before the first colon is the scheme.
    have hbefore := congrArg (List.takeWhile (· != ':')) hpath
    rw [List.append_assoc] at hbefore
    exact hscheme ((Url.span_before_mark hcolon _).1.symm.trans hbefore.symm)
  rw [isLocal, hoccurs, hfile]
  rfl

/-- A replacement by which a module is fetched from just this place, in a version that is looked
for, and for which no lockfile is refused. -/
structure StaysRemote (uri : String) : Prop where
  notLocal : isLocal uri = false
  items : FetchedFrom uri fun _ => uri
  picks : ChosenWith uri fun _ source cache queries name m =>
    ∃ pick, m = pick.pinned name uri ∧ Run.Sought source cache queries uri pick
  pinning : ∀ {p : Project} {lock : Lockfile} {name url : String},
    (Pinning.apply p (some lock)).2 = .error (.localReplacement name url) → url ≠ uri

theorem staysRemote_of_isLocal_eq_false (h : isLocal uri = false) : StaysRemote uri where
  notLocal := h
  items := by
    have hplace : (fun base => fetchUri uri base) = fun _ => uri := by
      funext base
      rw [fetchUri, h]
      rfl
    exact hplace ▸ fetchedFrom uri
  picks := by
    intro goal given workers cache base s t start r name m hreplaced hname hstart hreach hchosen
    have hsettles := Run.settles_reachable hstart hreach
    have hseeks := Run.seeks_reachable hstart hreach
    have huri : r.agenda.uriOf name = uri := by
      rw [hsettles.uriOf_eq hreplaced, fetchUri, h]
      rfl
    obtain ⟨history, pick, hfind, hshape⟩ := hsettles.settledEntry_of_chosen hname hchosen
    have hsought := hseeks.sought name _ pick hfind rfl rfl (huri.symm ▸ h)
    rw [huri] at hshape hsought
    exact ⟨pick, hshape, hsought⟩
  pinning := by
    intro p lock name url hrefused
    have hends := Pinning.ends_apply p (some lock)
    rw [hrefused] at hends
    rintro rfl
    generalize (Pinning.apply p (some lock)).1 = after at hends
    cases hends with
    | localModule _ _ _ hlocal => exact absurd hlocal.2 (Bool.eq_false_iff.mp h)

/-! ### Replacements without a scheme -/

/-- A repository without a scheme, such as `git@host:path`. -/
def IsShort (uri : String) : Prop :=
  ImportPath.occurs "://".toList uri.toList = false ∧
    ∃ importPath, ImportPath.ofUrl uri = .ok importPath

theorem IsShort.ne_empty (h : IsShort uri) : uri ≠ "" := by
  rintro rfl
  obtain ⟨_, _, hpath⟩ := h
  have hnone : (ImportPath.ofUrl "").toOption = none := by decide +kernel
  rw [hpath] at hnone
  cases hnone

/-- A replacement that is taken for the path of a folder: the module is fetched from there in the
local version, no version is asked for, and a lockfile with this place is refused. -/
structure CountsAsLocal (uri : String) : Prop where
  isLocal : isLocal uri = true
  moved : ∀ base, isFileUri (fetchUri uri base) = true ∧ fetchUri uri base ≠ uri
  items : FetchedFrom uri fun base => fetchUri uri base
  picks : ChosenWith uri fun base _ _ _ name m => m = Pick.ofLocal.pinned name (fetchUri uri base)
  unasked : ∀ {goal : Goal} {given : List PinnedModule} {workers : Int} {cache : Cache} {base : Path}
    {s t : Surroundings} {start r : Run},
    Run.start goal given workers cache base = .ok start → Run.Reachable s start t r →
      ∀ q ∈ r.queries, q.url ≠ uri ∧ q.url ≠ fetchUri uri base
  refused : ∀ {lock : Lockfile}, (∃ m ∈ lock.modules, m.url = uri) → lock.IsRefused

theorem countsAsLocal_of_isShort (h : IsShort uri) : CountsAsLocal uri where
  isLocal := isLocal_of_bare h.1
  moved := by
    intro base
    have hfile := isFileUri_fetchUri (isLocal_of_bare h.1) base
    refine ⟨hfile, fun heq => ?_⟩
    rw [heq] at hfile
    exact absurd (occurs_of_isFileUri hfile) (Bool.eq_false_iff.mp h.1)
  items := fetchedFrom uri
  picks := by
    intro goal given workers cache base s t start r name m hreplaced hname hstart hreach hchosen
    have hsettles := Run.settles_reachable hstart hreach
    have huri := hsettles.uriOf_eq hreplaced
    have hlocal := isLocal_fetchUri (isLocal_of_bare h.1) base
    have hm := hsettles.eq_ofLocal hname (huri.symm ▸ hlocal) hchosen
    rwa [huri] at hm
  unasked := by
    intro goal given workers cache base s t start r hstart hreach q hq
    have hremote := (Run.seeks_reachable hstart hreach).remote q hq
    have hlocal := isLocal_fetchUri (isLocal_of_bare h.1) base
    refine ⟨?_, ?_⟩
    · rintro rfl
      simp [isLocal_of_bare h.1] at hremote
    · intro hurl
      rw [hurl, hlocal] at hremote
      cases hremote
  refused := by
    rintro lock ⟨m, hm, rfl⟩
    exact lock.isRefused_of_local hm ⟨h.ne_empty, isLocal_of_bare h.1⟩

/-- A replacement with a scheme other than that of files stays remote throughout, and a repository
in the short form is taken for the path of a folder. -/
theorem replacement_stays (uri : String) :
    (IsSchemed uri → StaysRemote uri) ∧ (IsShort uri → CountsAsLocal uri) :=
  ⟨fun h => staysRemote_of_isLocal_eq_false (isLocal_of_isSchemed h), countsAsLocal_of_isShort⟩

/-- A project with a replacement of either kind, for `a` and for `b`. -/
def mirrorProject : Project where
  name := "svc"
  modules := [{ name := "a" }, { name := "b" }]
  replacements := [("a", "https://mirror/a"), ("b", "git@host:org/b")]

def mirrorSurroundings : Surroundings :=
  .inMemory { tags := [("https://mirror/a", ["1.0.0"]), ("git@host:org/b", ["1.0.0"])] } none
    { items := [
        { uri := "https://mirror/a", manifest := { name := "a" } },
        { uri := "file:///git%40host%3Aorg/b", manifest := { name := "b" } }] }
    0 fun n => n + 1

def mirrorStart : Run where
  agenda := .start (Goal.project mirrorProject).tasks mirrorProject.replacements []
  cache := { root := "/cache" }

def mirrorRun : Run :=
  Run.step mirrorSurroundings.next (Run.step mirrorSurroundings mirrorStart)

theorem reachable_mirrorRun :
    Run.Reachable mirrorSurroundings mirrorStart mirrorSurroundings.next.next mirrorRun := by
  refine .next (.next .initial ?_) ?_ <;> decide +kernel

theorem replacement_stays_mirror :
    ∃ pick, (mirrorRun.agenda.find? "a").bind Entry.chosen =
        some (pick.pinned "a" "https://mirror/a") ∧
      Run.Sought mirrorSurroundings.versions { root := "/cache" } mirrorRun.queries
        "https://mirror/a" pick ∧
      CountsAsLocal "git@host:org/b" := by
  have hschemed : IsSchemed "https://mirror/a" :=
    ⟨"https".toList, "mirror/a".toList, by decide, List.all_eq_true.mp (by decide), by decide,
      by decide +kernel⟩
  have hshort : IsShort "git@host:org/b" := ⟨by decide +kernel, "host/org/b", by decide +kernel⟩
  have hchosen : (mirrorRun.agenda.find? "a").bind Entry.chosen =
      some { name := "a", uri := "https://mirror/a", version := "1.0.0" } := by decide +kernel
  have hreplaced : (Ledger.ofList (Goal.project mirrorProject).replacements).get? "a" =
      some "https://mirror/a" := by decide +kernel
  have hstart : Run.start (.project mirrorProject) [] 1 { root := "/cache" } = .ok mirrorStart :=
    rfl
  obtain ⟨pick, hshape, hsought⟩ := ((replacement_stays _).1 hschemed).picks hreplaced (by decide)
    hstart reachable_mirrorRun hchosen
  exact ⟨pick, hshape ▸ hchosen, hsought, (replacement_stays _).2 hshort⟩

/-- A repository in the short form is fetched from a folder, in the local version, and a lockfile
with it is refused. -/
theorem short_form_local :
    (ImportPath.ofUrl "git@host:org/b").toOption = some "host/org/b" ∧
      isLocal "git@host:org/b" = true ∧
      (mirrorStart.agenda.answers [.pop, .pop]).map (Option.bind · Item.uri) =
        [some "https://mirror/a", some "file:///git%40host%3Aorg/b"] ∧
      (mirrorRun.agenda.find? "b").bind Entry.chosen =
        some (Pick.ofLocal.pinned "b" "file:///git%40host%3Aorg/b") ∧
      (Pinning.apply { name := "svc" }
          (some { modules := [{ name := "b", url := "git@host:org/b", version := "1.0.0" }] })).2 =
        .error (.localReplacement "b" "git@host:org/b") := by
  refine ⟨by decide +kernel, by decide +kernel, by decide +kernel, by decide +kernel, rfl⟩

end Location

end ModulePins
