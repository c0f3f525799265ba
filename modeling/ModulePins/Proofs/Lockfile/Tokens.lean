import ModulePins.Lockfile.Printer
import ModulePins.Proofs.Yaml.Allowed
import ModulePins.Proofs.Yaml.Entry
import ModulePins.Proofs.Yaml.Value

/-!
# Scanning a written lockfile

Every line of a written lockfile is scanned to the tokens of its name and value. Between two lines
at the left margin only the mapping of the whole document is open, and maybe that of the last item.
-/

namespace ModulePins

namespace Yaml.Scan

variable {s : Scan} {next : List Char} {column k : Nat} {inner outer : List Nat}

/-- A name of an entry: letters that read as text. -/
structure IsName (name : String) : Prop where
  not_empty : name.toList ≠ []
  isAlpha : ∀ c ∈ name.toList, c.isAlpha = true
  length_le : name.toList.length ≤ longestKey
  ofPlain : Tag.ofPlain {} name = .ok .text

/-- A line may follow here. -/
structure Resumes (next : List Char) : Prop where
  starts : Starts next
  not_mark : documentMark? next = none

def entryChars (column : Nat) (entry : String × String) : List Char :=
  entry.1.toList ++ ':' :: Printer.scalar (column + 2) (column + entry.1.toList.length + 1) entry.2

def entryTokens (column : Nat) (entry : String × String) : List Token :=
  [.key, .scalar true entry.1, .value,
    textToken (column + 2) (column + entry.1.toList.length + 1) entry.2]

/-- The open collections once there is a mapping in a column. -/
def openedAt (column : Nat) (outer : List Nat) : List Nat :=
  if outer.head? = some column then outer else column :: outer

theorem exists_openedAt (column : Nat) (outer : List Nat) :
    ∃ more, openedAt column outer = column :: more := by
  unfold openedAt
  split
  next hopen =>
    cases outer with
    | nil => cases hopen
    | cons o outer => exact ⟨outer, by rw [Option.some.inj hopen]⟩
  next => exact ⟨outer, rfl⟩

theorem Resumes.nil : Resumes [] :=
  ⟨nofun, rfl⟩

theorem Resumes.name {name : String} (hname : IsName name) (rest : List Char) :
    Resumes (name.toList ++ rest) := by
  obtain ⟨c, more, hcs⟩ := List.exists_cons_of_ne_nil hname.not_empty
  have hc : c.isAlpha = true := hname.isAlpha c (by simp [hcs])
  obtain ⟨hminus, hdot, -, hink, hstarts⟩ := of_isAlpha hc []
  rw [hcs]
  constructor
  · intro d hd
    obtain rfl : c = d := by simpa using hd
    refine ⟨?_, ?_, hink⟩
    · rintro rfl
      cases hc
    · rintro rfl
      cases hc
  · refine documentMark?_eq_none fun d hd => ?_
    obtain rfl : c = d := by simpa using hd
    exact ⟨hminus, hdot⟩

theorem wordOver_scalar (indent column : Nat) (text : String) (rest : List Char) :
    wordOver (Printer.scalar indent column text ++ rest) = true := by
  unfold Printer.scalar
  dsimp only
  split <;> rfl

theorem At.start (h : Resumes next) : At { cursor := { rest := next } } next 0 true :=
  .of_spaces (n := 0) rfl (by simp) rfl rfl h.starts

theorem At.line {entry : String × String}
    (h : At s (entryChars column entry ++ '\n' :: (List.replicate k ' ' ++ next)) column true)
    (hleaves : Leaves column s.columns inner outer) (hname : IsName entry.1) (hk : k ≤ column)
    (hwidth : column + 2 < Printer.width) (hnext : Starts next)
    (hmark : documentMark? (List.replicate k ' ' ++ next) = none) :
    ∃ t : Scan, Steps s t ∧ At t next k true ∧ t.columns = openedAt column outer ∧
      t.tokens = s.tokens ++ (inner.map (fun _ => Token.blockEnd) ++
        ((if outer.head? = some column then [] else [.blockMapping]) ++ entryTokens column entry)) := by
  rw [entryChars, List.append_assoc, List.cons_append] at h
  obtain ⟨t, hsteps, hbehind, hcolumns, htokens⟩ := h.entry hleaves hname.not_empty hname.isAlpha
    hname.length_le (wordOver_scalar ..)
  obtain ⟨more, hopened⟩ := exists_openedAt column outer
  obtain ⟨u, hsteps', hat, hcolumns', htokens'⟩ := hbehind.value (hcolumns.trans hopened) (by omega) hk
    (by have := List.length_pos_iff.mpr hname.not_empty; omega) hwidth hnext hmark
  refine ⟨u, hsteps.trans hsteps', hat, hcolumns'.trans hcolumns, ?_⟩
  rw [htokens', htokens, String.ofList_toList, append_append]
  simp [entryTokens]

/-- A further line of an item. -/
def lineChars (column : Nat) (entry : String × String) : List Char :=
  List.replicate column ' ' ++ entryChars column entry ++ ['\n']

theorem At.lines {entry : String × String} {rest : List (String × String)}
    (h : At s (entryChars column entry ++ '\n' :: (rest.flatMap (lineChars column) ++ next)) column true)
    (hleaves : Leaves column s.columns inner outer) (hnames : ∀ e ∈ entry :: rest, IsName e.1)
    (hcolumn : 0 < column) (hwidth : column + 2 < Printer.width) (hnext : Resumes next) :
    ∃ t : Scan, Steps s t ∧ At t next 0 true ∧ t.columns = openedAt column outer ∧
      t.tokens = s.tokens ++ (inner.map (fun _ => Token.blockEnd) ++
        ((if outer.head? = some column then [] else [.blockMapping]) ++
          (entry :: rest).flatMap (entryTokens column))) := by
  induction rest generalizing s entry inner outer with
  | nil =>
    have hline : At s (entryChars column entry ++ '\n' :: (List.replicate 0 ' ' ++ next)) column true := h
    simpa using hline.line hleaves (hnames entry List.mem_cons_self) (Nat.zero_le _) hwidth
      hnext.starts hnext.not_mark
  | cons second rest ih =>
    have hsecond : IsName second.1 := hnames second (by simp)
    have hresumes := Resumes.name hsecond (':' :: (Printer.scalar (column + 2)
      (column + second.1.toList.length + 1) second.2 ++ '\n' :: (rest.flatMap (lineChars column) ++ next)))
    have hline : At s (entryChars column entry ++ '\n' :: (List.replicate column ' ' ++
        (entryChars column second ++ '\n' :: (rest.flatMap (lineChars column) ++ next)))) column true := by
      simpa [lineChars] using h
    obtain ⟨t, hsteps, hat, hcolumns, htokens⟩ := hline.line hleaves (hnames entry List.mem_cons_self)
      (Nat.le_refl _) hwidth (by simpa [entryChars] using hresumes.starts) (documentMark?_spaces hcolumn _)
    obtain ⟨more, hopened⟩ := exists_openedAt column outer
    have hhead : (openedAt column outer).head? = some column := by rw [hopened]; rfl
    obtain ⟨u, hsteps', hat', hcolumns', htokens'⟩ := ih hat
      (Leaves.mk (List.nil_append _).symm nofun fun o ho => by
        rw [hcolumns, hhead] at ho
        exact (Option.some.inj ho).ge)
      fun e he => hnames e (List.mem_cons_of_mem _ he)
    rw [hcolumns] at hcolumns' htokens'
    refine ⟨u, hsteps.trans hsteps', hat', by rw [hcolumns', openedAt, if_pos hhead], ?_⟩
    rw [htokens', htokens, if_pos hhead, append_append]
    simp

/-- Between two lines at the left margin. `tokens` are those of the lines so far, with the end of
the last item. -/
structure Between (s : Scan) (rest : List Char) (tokens : List Token) : Prop where
  at_margin : At s rest 0 true
  exists_inner : ∃ inner, Leaves 0 s.columns inner [0] ∧
    s.tokens.toList ++ inner.map (fun _ => Token.blockEnd) = tokens

variable {tokens : List Token} {rest : List Char}

theorem Between.line {entry : String × String}
    (h : Between s (entryChars 0 entry ++ '\n' :: next) tokens) (hname : IsName entry.1)
    (hnext : Resumes next) :
    ∃ t : Scan, Steps s t ∧ Between t next (tokens ++ entryTokens 0 entry) := by
  obtain ⟨hat, inner, hleaves, rfl⟩ := h
  have hline : At s (entryChars 0 entry ++ '\n' :: (List.replicate 0 ' ' ++ next)) 0 true := hat
  obtain ⟨t, hsteps, hat', hcolumns, htokens⟩ := hline.line hleaves hname (Nat.le_refl _) (by decide)
    hnext.starts hnext.not_mark
  refine ⟨t, hsteps, hat', [], ⟨hcolumns, nofun, by simp⟩, ?_⟩
  simp [htokens]

def itemChars : List (String × String) → List Char
  | [] => []
  | entry :: rest => '-' :: ' ' :: (entryChars 2 entry ++ '\n' :: rest.flatMap (lineChars 2))

def itemTokens (item : List (String × String)) : List Token :=
  .item :: .blockMapping :: (item.flatMap (entryTokens 2) ++ [.blockEnd])

theorem Resumes.item (rest : List Char) : Resumes ('-' :: ' ' :: rest) :=
  ⟨by simp [Starts]; decide, documentMark?_dash rfl⟩

theorem Between.item {item : List (String × String)} (h : Between s (itemChars item ++ next) tokens)
    (hne : item ≠ []) (hnames : ∀ e ∈ item, IsName e.1) (hnext : Resumes next) :
    ∃ t : Scan, Steps s t ∧ Between t next (tokens ++ itemTokens item) := by
  obtain ⟨hat, inner, hleaves, rfl⟩ := h
  obtain ⟨entry, rest, rfl⟩ := List.exists_cons_of_ne_nil hne
  obtain ⟨t, hsteps, hrest, hcolumn, hflow, hkey, hmay, hversion, hcolumns, htokens⟩ :=
    hat.item hleaves rfl rfl
  have hname := Resumes.name (hnames entry List.mem_cons_self) (':' :: (Printer.scalar (2 + 2)
      (2 + entry.1.toList.length + 1) entry.2 ++ '\n' :: (rest.flatMap (lineChars 2) ++ next)))
  have hline := At.of_spaces (n := 1) hflow (by simp [hkey]) hversion hrest
    (by simpa [entryChars] using hname.starts)
  rw [hcolumn, hmay] at hline
  have hlines : At t (entryChars 2 entry ++ '\n' :: (rest.flatMap (lineChars 2) ++ next)) 2 true := by
    simpa using hline
  have hopen : Leaves 2 t.columns [] [0] := ⟨hcolumns, nofun, by simp⟩
  obtain ⟨u, hsteps', hat', hcolumns', htokens'⟩ := hlines.lines hopen hnames (by decide) (by decide) hnext
  refine ⟨u, hsteps.trans hsteps', hat', [2], ⟨hcolumns', by simp, by simp⟩, ?_⟩
  simp [htokens', htokens, itemTokens]

theorem Between.items {items : List (List (String × String))}
    (h : Between s (items.flatMap itemChars ++ next) tokens) (hne : ∀ item ∈ items, item ≠ [])
    (hnames : ∀ item ∈ items, ∀ e ∈ item, IsName e.1) (hnext : Resumes next) :
    ∃ t : Scan, Steps s t ∧ Between t next (tokens ++ items.flatMap itemTokens) := by
  induction items generalizing s tokens with
  | nil => exact ⟨s, .refl s, by simpa using h⟩
  | cons item items ih =>
    have hresumes : Resumes (items.flatMap itemChars ++ next) := by
      cases items with
      | nil => exact hnext
      | cons second items =>
        obtain ⟨entry, rest, rfl⟩ := List.exists_cons_of_ne_nil (hne second (by simp))
        exact .item _
    rw [List.flatMap_cons, List.append_assoc] at h
    obtain ⟨t, hsteps, hbetween⟩ := h.item (hne item (by simp)) (hnames item (by simp)) hresumes
    obtain ⟨u, hsteps', hbetween'⟩ := ih hbetween (fun i hi => hne i (List.mem_cons_of_mem _ hi))
      fun i hi => hnames i (List.mem_cons_of_mem _ hi)
    refine ⟨u, hsteps.trans hsteps', ?_⟩
    rwa [List.append_assoc, ← List.flatMap_cons] at hbetween'

def listingChars (name : String) (items : List (List (String × String))) : List Char :=
  name.toList ++ ':' :: if items.isEmpty then [' ', '[', ']', '\n'] else '\n' :: items.flatMap itemChars

def listingTokens (name : String) (items : List (List (String × String))) : List Token :=
  [.key, .scalar true name, .value] ++
    if items.isEmpty then [.flowSequence, .flowSequenceEnd] else items.flatMap itemTokens

theorem Between.listing {name : String} {items : List (List (String × String))}
    (h : Between s (listingChars name items ++ next) tokens) (hname : IsName name)
    (hne : ∀ item ∈ items, item ≠ []) (hnames : ∀ item ∈ items, ∀ e ∈ item, IsName e.1)
    (hnext : Resumes next) :
    ∃ t : Scan, Steps s t ∧ Between t next (tokens ++ listingTokens name items) := by
  obtain ⟨hat, inner, hleaves, rfl⟩ := h
  rw [listingChars, List.append_assoc, List.cons_append] at hat
  cases items with
  | nil =>
    obtain ⟨t, hsteps, hbehind, hcolumns, htokens⟩ := hat.entry hleaves hname.not_empty hname.isAlpha
      hname.length_le rfl
    have hlist : Behind t (' ' :: '[' :: ']' :: '\n' :: (List.replicate 0 ' ' ++ next)) _ := hbehind
    obtain ⟨u, hsteps', hat', hcolumns', htokens'⟩ :=
      hlist.emptyList (by simp [hcolumns]) hnext.starts
    refine ⟨u, hsteps.trans hsteps', hat', [], ⟨hcolumns'.trans hcolumns, nofun, by simp⟩, ?_⟩
    simp [htokens', htokens, listingTokens]
  | cons item items =>
    obtain ⟨t, hsteps, hbehind, hcolumns, htokens⟩ := hat.entry hleaves hname.not_empty hname.isAlpha
      hname.length_le rfl
    have hstarts : Resumes ((item :: items).flatMap itemChars ++ next) := by
      obtain ⟨entry, rest, rfl⟩ := List.exists_cons_of_ne_nil (hne item (by simp))
      exact .item _
    have hmargin : At t ((item :: items).flatMap itemChars ++ next) 0 true :=
      .of_line (n := 0) hbehind.flow (by simp [hbehind.key]) hbehind.version hbehind.rest_eq hstarts.starts
    have hbetween : Between t ((item :: items).flatMap itemChars ++ next) _ :=
      ⟨hmargin, [], ⟨hcolumns, nofun, by simp⟩, rfl⟩
    obtain ⟨u, hsteps', hbetween'⟩ := hbetween.items hne hnames hnext
    refine ⟨u, hsteps.trans hsteps', ?_⟩
    simpa [htokens, listingTokens] using hbetween'

/-- At the end of the text the mapping of the document is closed. -/
theorem Between.last (h : Between s [] tokens) :
    ∃ t : Scan, s.step = .ok (t, true) ∧ t.version = {} ∧
      t.tokens.toList = tokens ++ [.blockEnd, .streamEnd] := by
  obtain ⟨hat, inner, hleaves, rfl⟩ := h
  obtain ⟨t, hstep, hversion, htokens⟩ := hat.last
  refine ⟨t, hstep, hversion, ?_⟩
  simp [htokens, hleaves.columns_eq]

/-! ### A document may hold the lines -/

theorem IsName.allowed {name : String} (h : IsName name) {c : Char} (hc : c ∈ name.toList) :
    isAllowed c = true := by
  have hletter := Text.isAlpha_range (h.isAlpha c hc)
  have hrange : 0x20 ≤ c.toNat ∧ c.toNat ≤ 0x7E := by omega
  simp [isAllowed, hrange]

theorem isAllowed_of_mem_entry {entry : String × String} (hname : IsName entry.1)
    (hwidth : column + 2 < Printer.width) :
    ∀ c ∈ entryChars column entry, isAllowed c = true := by
  intro c hc
  obtain hc | hc := List.mem_append.mp hc
  · exact hname.allowed hc
  obtain rfl | hc := List.mem_cons.mp hc
  · rfl
  · exact Printer.isAllowed_of_mem_scalar hwidth hc

theorem isAllowed_of_mem_item {item : List (String × String)} (hnames : ∀ e ∈ item, IsName e.1) :
    ∀ c ∈ itemChars item, isAllowed c = true := by
  have hline : ∀ e, IsName e.1 → ∀ c ∈ lineChars 2 e, isAllowed c = true := by
    intro e he c hc
    simp only [lineChars, List.mem_append, List.mem_replicate, List.mem_singleton] at hc
    obtain (⟨-, rfl⟩ | hc) | rfl := hc
    · rfl
    · exact isAllowed_of_mem_entry he (by decide) c hc
    · rfl
  intro c hc
  cases item with
  | nil => cases hc
  | cons entry rest =>
    simp only [itemChars, List.mem_cons, List.mem_append, List.mem_flatMap] at hc
    obtain rfl | rfl | hc | rfl | ⟨e, he, hc⟩ := hc
    · rfl
    · rfl
    · exact isAllowed_of_mem_entry (hnames entry List.mem_cons_self) (by decide) c hc
    · rfl
    · exact hline e (hnames e (List.mem_cons_of_mem _ he)) c hc

theorem isAllowed_of_mem_listing {name : String} {items : List (List (String × String))}
    (hname : IsName name) (hnames : ∀ item ∈ items, ∀ e ∈ item, IsName e.1) :
    ∀ c ∈ listingChars name items, isAllowed c = true := by
  intro c hc
  obtain hc | hc := List.mem_append.mp hc
  · exact hname.allowed hc
  obtain rfl | hc := List.mem_cons.mp hc
  · rfl
  split at hc
  · have hbrackets : ∀ c ∈ [' ', '[', ']', '\n'], isAllowed c = true := List.all_eq_true.mp rfl
    exact hbrackets c hc
  · obtain rfl | hc := List.mem_cons.mp hc
    · rfl
    · obtain ⟨item, hitem, hc⟩ := List.mem_flatMap.mp hc
      exact isAllowed_of_mem_item (hnames item hitem) c hc

end Yaml.Scan

/-! ### The whole text -/

open Yaml Yaml.Scan

def LockedModule.entries (m : LockedModule) : List (String × String) :=
  [("name", m.name), ("url", m.url), ("version", m.version)]

def LockedFile.entries (f : LockedFile) : List (String × String) :=
  [("name", f.name), ("template", f.template), ("module", f.moduleName)]

theorem isName_of_mem {name : String}
    (h : name ∈ ["version", "generated", "modules", "files", "name", "url", "template", "module"]) :
    IsName name := by
  have hall : ∀ name ∈ ["version", "generated", "modules", "files", "name", "url", "template", "module"],
      name.toList ≠ [] ∧ name.toList.all Char.isAlpha = true ∧ name.toList.length ≤ longestKey ∧
        Tag.ofPlain {} name = .ok .text := by
    decide
  obtain ⟨hne, halpha, hlength, htag⟩ := hall name h
  exact ⟨hne, List.all_eq_true.mp halpha, hlength, htag⟩

theorem LockedModule.isName_of_mem_entries (m : LockedModule) : ∀ e ∈ m.entries, IsName e.1 := by
  intro e he
  simp only [entries, List.mem_cons, List.not_mem_nil, or_false] at he
  obtain rfl | rfl | rfl := he <;> exact isName_of_mem (by simp)

theorem LockedFile.isName_of_mem_entries (f : LockedFile) : ∀ e ∈ f.entries, IsName e.1 := by
  intro e he
  simp only [entries, List.mem_cons, List.not_mem_nil, or_false] at he
  obtain rfl | rfl | rfl := he <;> exact isName_of_mem (by simp)

namespace Lockfile

theorem toList_line (lead name value : String) :
    (line lead name value).toList =
      lead.toList ++ (entryChars lead.toList.length (name, value) ++ ['\n']) := by
  simp [line, entryChars, String.toList_append, ← String.length_toList, Nat.add_assoc]

theorem toList_item (entry : String × String) (rest : List (String × String)) :
    (item (entry :: rest)).toList = itemChars (entry :: rest) := by
  have hrest : (String.join (rest.map fun e => line "  " e.1 e.2)).toList =
      rest.flatMap (lineChars 2) := by
    rw [String.toList_join, List.flatMap_map]
    refine List.flatMap_congr fun e _ => ?_
    simp [toList_line, lineChars]
  have hitem : item (entry :: rest) =
      line "- " entry.1 entry.2 ++ String.join (rest.map fun e => line "  " e.1 e.2) := rfl
  rw [hitem, String.toList_append, hrest, toList_line]
  simp [itemChars]

theorem toList_listing (name : String) {items : List (List (String × String))}
    (hne : ∀ item ∈ items, item ≠ []) : (listing name items).toList = listingChars name items := by
  have hitems : (String.join (items.map item)).toList = items.flatMap itemChars := by
    rw [String.toList_join, List.flatMap_map]
    refine List.flatMap_congr fun item hitem => ?_
    obtain ⟨entry, rest, rfl⟩ := List.exists_cons_of_ne_nil (hne item hitem)
    exact toList_item entry rest
  unfold listing listingChars
  split <;> simp [String.toList_append, hitems]

def tokens (now : Instant) (lock : Lockfile) : List Token :=
  .blockMapping :: (entryTokens 0 ("version", lock.version) ++
    entryTokens 0 ("generated", (lock.generated.getD now).text) ++
    listingTokens "modules" (lock.modules.map LockedModule.entries) ++
    listingTokens "files" (lock.files.map LockedFile.entries) ++ [.blockEnd, .streamEnd])

theorem toList_text (now : Instant) (lock : Lockfile) :
    (text now lock).toList = entryChars 0 ("version", lock.version) ++ '\n' ::
      (entryChars 0 ("generated", (lock.generated.getD now).text) ++ '\n' ::
        (listingChars "modules" (lock.modules.map LockedModule.entries) ++
          listingChars "files" (lock.files.map LockedFile.entries))) := by
  have htext : text now lock = line "" "version" lock.version ++
      line "" "generated" (lock.generated.getD now).text ++
      listing "modules" (lock.modules.map LockedModule.entries) ++
      listing "files" (lock.files.map LockedFile.entries) := rfl
  rw [htext, String.toList_append, String.toList_append, String.toList_append, toList_line, toList_line,
    toList_listing _ (by simp [LockedModule.entries]), toList_listing _ (by simp [LockedFile.entries])]
  simp

variable {lock : Lockfile}

theorem isName_modules :
    ∀ item ∈ lock.modules.map LockedModule.entries, ∀ e ∈ item, IsName e.1 := by
  intro item hitem
  obtain ⟨m, -, rfl⟩ := List.mem_map.mp hitem
  exact m.isName_of_mem_entries

theorem isName_files : ∀ item ∈ lock.files.map LockedFile.entries, ∀ e ∈ item, IsName e.1 := by
  intro item hitem
  obtain ⟨f, -, rfl⟩ := List.mem_map.mp hitem
  exact f.isName_of_mem_entries

theorem isAllowed_of_mem_text (now : Instant) {c : Char} (hc : c ∈ (text now lock).toList) :
    isAllowed c = true := by
  have hversion : IsName "version" := isName_of_mem (by simp)
  have hgenerated : IsName "generated" := isName_of_mem (by simp)
  have hmodules : IsName "modules" := isName_of_mem (by simp)
  have hfiles : IsName "files" := isName_of_mem (by simp)
  rw [toList_text] at hc
  simp only [List.mem_append, List.mem_cons] at hc
  obtain hc | rfl | hc | rfl | hc | hc := hc
  · exact isAllowed_of_mem_entry hversion (by decide) c hc
  · rfl
  · exact isAllowed_of_mem_entry hgenerated (by decide) c hc
  · rfl
  · exact isAllowed_of_mem_listing hmodules isName_modules c hc
  · exact isAllowed_of_mem_listing hfiles isName_files c hc

/-- A written lockfile is scanned to its tokens. -/
theorem tokens_text (now : Instant) (lock : Lockfile) :
    Yaml.tokens (text now lock).toList = .ok (tokens now lock, {}) := by
  have hgenerated : IsName "generated" := isName_of_mem (by simp)
  have hmodules : IsName "modules" := isName_of_mem (by simp)
  have hfiles : IsName "files" := isName_of_mem (by simp)
  have hversion : IsName "version" := isName_of_mem (by simp)
  obtain ⟨s, hs⟩ : ∃ s : Scan, s = { cursor := { rest := (text now lock).toList } } := ⟨_, rfl⟩
  have hstart : At s (text now lock).toList 0 true := by
    have hresumes : Resumes (text now lock).toList := by
      rw [toList_text, entryChars, List.append_assoc]
      exact .name hversion _
    rw [hs]
    exact .start hresumes
  rw [toList_text] at hstart
  -- the first line opens the mapping of the document
  have hcolumns : s.columns = [] := by rw [hs]
  have htokens : s.tokens = #[] := by rw [hs]
  have hline : At s (entryChars 0 ("version", lock.version) ++ '\n' :: (List.replicate 0 ' ' ++
      (entryChars 0 ("generated", (lock.generated.getD now).text) ++ '\n' ::
        (listingChars "modules" (lock.modules.map LockedModule.entries) ++
          listingChars "files" (lock.files.map LockedFile.entries))))) 0 true := hstart
  have hresumes : Resumes (entryChars 0 ("generated", (lock.generated.getD now).text) ++ '\n' ::
      (listingChars "modules" (lock.modules.map LockedModule.entries) ++
        listingChars "files" (lock.files.map LockedFile.entries))) := by
    rw [entryChars, List.append_assoc]
    exact .name hgenerated _
  have hleaves : Leaves 0 s.columns [] [] := ⟨hcolumns, nofun, nofun⟩
  obtain ⟨t₁, hsteps₁, hat₁, hcolumns₁, htokens₁⟩ := hline.line hleaves hversion (Nat.le_refl _)
    (by decide) hresumes.starts hresumes.not_mark
  have hbetween₁ : Between t₁ _ (.blockMapping :: entryTokens 0 ("version", lock.version)) :=
    ⟨hat₁, [], ⟨hcolumns₁, nofun, by simp⟩, by simp [htokens₁, htokens]⟩
  obtain ⟨t₂, hsteps₂, hbetween₂⟩ := hbetween₁.line hgenerated
    (by rw [listingChars, List.append_assoc]; exact .name hmodules _)
  obtain ⟨t₃, hsteps₃, hbetween₃⟩ := hbetween₂.listing hmodules (by simp [LockedModule.entries])
    isName_modules (by rw [listingChars]; exact .name hfiles _)
  rw [← List.append_nil (listingChars _ _)] at hbetween₃
  obtain ⟨t₄, hsteps₄, hbetween₄⟩ := hbetween₃.listing hfiles (by simp [LockedFile.entries])
    isName_files .nil
  obtain ⟨t, hlast, hversion', htokens'⟩ := hbetween₄.last
  have hrun : Scan.run ((text now lock).toList.length + 2) s = .ok t :=
    (hsteps₁.trans (hsteps₂.trans (hsteps₃.trans hsteps₄))).run_eq hlast (by simp [hs])
  have hall : (text now lock).toList.all isAllowed = true :=
    List.all_eq_true.mpr fun c hc => isAllowed_of_mem_text now hc
  rw [Yaml.tokens, if_pos hall, ← hs]
  simp only [hrun, htokens', hversion', bind, Except.bind, pure, Except.pure]
  simp [tokens]

end Lockfile

end ModulePins
