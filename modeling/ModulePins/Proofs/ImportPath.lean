import ModulePins.Manifest.Requirement
import ModulePins.Proofs.Checked
import ModulePins.Proofs.SemVer.Written
import ModulePins.Proofs.Url

/-!
# One import path for all spellings

A repository may be written with a scheme or in the short form, with a port or a user, with the
customary ending, with slashes and between blanks. All of this is the same import path: its host and
its path.
-/

namespace ModulePins.ImportPath

open Text Url

variable {cs word : List Char}

/-! ### Repositories and their spellings -/

/-- A host and the segments of a path that does not end like repositories customarily do. -/
structure Repository where
  host : List Char
  segments : List (List Char)
  host_ne_nil : host ≠ []
  isHostChar_host : ∀ c ∈ host, isHostChar c = true
  segments_ne_nil : segments ≠ []
  ne_nil_of_mem : ∀ segment ∈ segments, segment ≠ []
  isPathChar_of_mem : ∀ segment ∈ segments, ∀ c ∈ segment, isPathChar c = true
  not_ending : ¬ ".git".toList <:+ ['/'].intercalate segments

namespace Repository

def path (r : Repository) : List Char :=
  ['/'].intercalate r.segments

def importPath (r : Repository) : String :=
  String.ofList (r.host ++ '/' :: r.path)

def ofAscii (host : List Char) (segments : List (List Char))
    (hhost : host ≠ [] ∧
      ∀ c ∈ host, (c.isLower || c.isDigit || c == '.' || c == '-') = true)
    (hsegments : segments ≠ [] ∧ ∀ segment ∈ segments, segment ≠ [] ∧
      ∀ c ∈ segment, (c.isAlphanum || c == '.' || c == '_' || c == '~' || c == '-') = true)
    (hending : ¬ ".git".toList <:+ ['/'].intercalate segments) : Repository where
  host := host
  segments := segments
  host_ne_nil := hhost.1
  isHostChar_host := fun c hc => isHostChar_of_ascii (hhost.2 c hc)
  segments_ne_nil := hsegments.1
  ne_nil_of_mem := fun segment h => (hsegments.2 segment h).1
  isPathChar_of_mem := fun segment h c hc => isPathChar_of_ascii ((hsegments.2 segment h).2 c hc)
  not_ending := hending

end Repository

/-- What a repository may be written like, from a locator with a scheme to the short form. -/
inductive Spelling where
  | web
  | webAt (port : List Char) (digits : port.all Char.isDigit = true)
  | shell
  | short
  | anonymous
  | rooted

namespace Spelling

def front (host : List Char) : Spelling → List Char
  | web => "https://".toList ++ host ++ "/".toList
  | webAt port _ => "https://".toList ++ host ++ ":".toList ++ port ++ "/".toList
  | shell => "ssh://git@".toList ++ host ++ "/".toList
  | short => "git@".toList ++ host ++ ":".toList
  | anonymous => host ++ ":".toList
  | rooted => "git@".toList ++ host ++ ":/".toList

/-- The text of a repository: an ending may follow the path, and slashes may follow both. -/
def text (s : Spelling) (r : Repository) (ending : Bool) (slashes : Nat) : List Char :=
  s.front r.host ++ (r.path ++ (if ending then ".git".toList else []) ++
    List.replicate slashes '/')

/-- The part of the front that is taken for part of the path. -/
def root : Spelling → List Char
  | short | anonymous => []
  | _ => ['/']

end Spelling

/-! ### The short form -/

variable {host path : List Char}

theorem occurs_iff_infix : occurs word cs = true ↔ word <:+: cs := by
  induction cs with
  | nil => simp [occurs]
  | cons c cs ih => simp [occurs, ih, List.infix_cons_iff]

/-- A text whose only colon is not followed by two slashes has no scheme. -/
theorem not_occurs_of_colon {front rest : List Char} (hfront : ':' ∉ front) (hrest : ':' ∉ rest)
    (hslashes : ¬ "//".toList <+: rest) : occurs "://".toList (front ++ ':' :: rest) = false := by
  rw [← Bool.not_eq_true, occurs_iff_infix]
  induction front with
  | nil =>
    rw [List.nil_append, List.infix_cons_iff, not_or]
    refine ⟨fun h => hslashes (List.cons_prefix_cons.mp h).2, fun h => hrest (h.subset ?_)⟩
    decide
  | cons c front ih =>
    rw [List.mem_cons, not_or] at hfront
    rw [List.cons_append, List.infix_cons_iff, not_or]
    exact ⟨fun h => hfront.1 (List.cons_prefix_cons.mp h).1, ih hfront.2⟩

theorem splitHost?_append (hhost : host ≠ []) (hends : ∀ c ∈ host, c ≠ ':' ∧ c ≠ '/')
    (hpath : path ≠ []) (hline : '\n' ∉ path) :
    splitHost? (host ++ ':' :: path) = some (host, path) := by
  have hin : ∀ c ∈ host, (!(c == ':' || c == '/')) = true := fun c hc => by simp [hends c hc]
  obtain ⟨htake, hdrop⟩ := span_append_cons (c := ':') hin (by decide) path
  simp only [splitHost?, htake, hdrop]
  simp [hhost, hpath, hline]

theorem dropUser?_append {user : List Char} (huser : user ≠ [])
    (hends : ∀ c ∈ user, c ≠ '@' ∧ c ≠ '/') (rest : List Char) :
    dropUser? (user ++ '@' :: rest) = some rest := by
  have hin : ∀ c ∈ user, (!(c == '@' || c == '/')) = true := fun c hc => by simp [hends c hc]
  obtain ⟨htake, hdrop⟩ := span_append_cons (c := '@') hin (by decide) rest
  obtain ⟨c, user, rfl⟩ := List.exists_cons_of_ne_nil huser
  simp only [dropUser?, htake, hdrop]

theorem dropUser?_of_not_mem (h : '@' ∉ cs) : dropUser? cs = none := by
  unfold dropUser?
  dsimp only
  split
  · rename_i hdrop
    have hmem := (List.dropWhile_suffix fun c => !(c == '@' || c == '/')).subset
      (hdrop ▸ List.mem_cons_self)
    exact absurd hmem h
  · rfl

/-! ### Host and path of a spelling -/

section Split

variable {tail : List Char} (url : String) (hhost : ∀ c ∈ host, isHostChar c = true)

include hhost

theorem not_mem_host {mark : Char} (hmark : mark ∈ "/?#:@[]%".toList) : mark ∉ host :=
  fun hc => ne_of_isHostChar (hhost mark hc) hmark rfl

theorem split_scheme {scheme authority port : List Char}
    (hscheme : scheme.head?.any Char.isAlpha = true) (hchars : ∀ c ∈ scheme, isSchemeChar c = true)
    (hauthority : IsAuthority authority) (hplace : (cutLast '@' authority).2 = host ++ port)
    (hport : '[' ∉ port) (hstop : port.takeWhile (· != ':') = []) (htail : IsPath tail) :
    split url (scheme ++ ':' :: '/' :: '/' :: (authority ++ '/' :: tail)) =
      .ok (host, '/' :: tail) := by
  have hoccurs : occurs "://".toList
      (scheme ++ ':' :: '/' :: '/' :: (authority ++ '/' :: tail)) = true :=
    occurs_iff_infix.mpr ⟨scheme, authority ++ '/' :: tail, by simp⟩
  rw [split, if_pos hoccurs, Url.split_append hscheme hchars hauthority htail]
  dsimp only
  rw [host_eq hhost hport hplace hstop]

theorem split_short (hne : host ≠ []) {user : List Char} (huser : user = [] ∨ user = "git@".toList)
    (htail : IsPath tail) (hempty : tail ≠ []) (hslashes : ¬ "//".toList <+: tail) :
    split url (user ++ (host ++ ':' :: tail)) = .ok (host, tail) := by
  have hcolon : ':' ∉ user ++ host := by
    rw [List.mem_append, not_or]
    refine ⟨?_, not_mem_host hhost (by decide)⟩
    obtain rfl | rfl := huser <;> decide
  have hoccurs : occurs "://".toList (user ++ (host ++ ':' :: tail)) = false := by
    rw [← List.append_assoc]
    exact not_occurs_of_colon hcolon (htail.not_mem ':' (by decide)) hslashes
  have hends : ∀ c ∈ host, c ≠ ':' ∧ c ≠ '/' := fun c hc =>
    ⟨ne_of_isHostChar (hhost c hc) (by decide), ne_of_isHostChar (hhost c hc) (by decide)⟩
  have hline : '\n' ∉ tail := fun hc => absurd (htail.isBlank_eq_false hc) (by decide)
  have hshort : splitShort? (user ++ (host ++ ':' :: tail)) = some (host, tail) := by
    rw [splitShort?]
    obtain rfl | rfl := huser
    · have hat : '@' ∉ host ++ ':' :: tail := by
        simpa using ⟨not_mem_host hhost (by decide), htail.not_mem '@' (by decide)⟩
      rw [List.nil_append, dropUser?_of_not_mem hat, Option.bind_none, Option.none_or,
        splitHost?_append hne hends hempty hline]
    · have hdrop : dropUser? ("git@".toList ++ (host ++ ':' :: tail)) = some (host ++ ':' :: tail) :=
        dropUser?_append (List.cons_ne_nil 'g' ['i', 't']) (by simp) _
      rw [hdrop, Option.bind_some, splitHost?_append hne hends hempty hline, Option.some_or]
  rw [split, hoccurs, if_neg Bool.false_ne_true, hshort]

/-- However a repository is written, its host is found, and its path, perhaps behind a slash. -/
theorem split_front (hne : host ≠ []) (s : Spelling) (htail : IsPath tail)
    (hhead : tail.head?.any (· == '/') = false) (hempty : tail ≠ []) :
    split url (s.front host ++ tail) = .ok (host, s.root ++ tail) := by
  have hplain := isAuthority_of_host hhost
  have hat : '@' ∉ host := not_mem_host hhost (by decide)
  -- Without this the short form would be taken for a locator with a scheme.
  have hslash : ¬ ['/'] <+: tail := by
    rintro ⟨rest, rfl⟩
    cases hhead
  cases s with
  | web =>
    have htext : Spelling.web.front host ++ tail =
        ['h', 't', 't', 'p', 's'] ++ ':' :: '/' :: '/' :: (host ++ '/' :: tail) := by
      change "https://".toList ++ host ++ "/".toList ++ tail = _
      simp
    rw [htext]
    exact split_scheme url hhost (by decide) (List.all_eq_true.mp (by decide)) hplain
      (by rw [cutLast_of_not_mem hat, List.append_nil]) List.not_mem_nil rfl htail
  | webAt port digits =>
    have hdigit : ∀ c ∈ port, isHostChar c = true := fun c hc =>
      isHostChar_of_ascii (by simp [List.all_eq_true.mp digits c hc])
    have hauthority : IsAuthority (host ++ ':' :: port) :=
      hplain.join (.inl rfl) (isAuthority_of_host hdigit)
    have hplace : (cutLast '@' (host ++ ':' :: port)).2 = host ++ ':' :: port :=
      cutLast_of_not_mem (by simpa using ⟨hat, not_mem_host hdigit (by decide)⟩)
    have htext : (Spelling.webAt port digits).front host ++ tail =
        ['h', 't', 't', 'p', 's'] ++ ':' :: '/' :: '/' :: (host ++ ':' :: port ++ '/' :: tail) := by
      change "https://".toList ++ host ++ ":".toList ++ port ++ "/".toList ++ tail = _
      simp
    rw [htext]
    exact split_scheme url hhost (by decide) (List.all_eq_true.mp (by decide)) hauthority hplace
      (by simpa using not_mem_host hdigit (by decide)) (by simp) htail
  | shell =>
    have hauthority : IsAuthority (['g', 'i', 't'] ++ '@' :: host) :=
      (isAuthority_of_host (List.all_eq_true.mp (by decide))).join (.inr rfl) hplain
    have htext : Spelling.shell.front host ++ tail =
        ['s', 's', 'h'] ++ ':' :: '/' :: '/' :: (['g', 'i', 't'] ++ '@' :: host ++ '/' :: tail) := by
      change "ssh://git@".toList ++ host ++ "/".toList ++ tail = _
      simp
    rw [htext]
    exact split_scheme url hhost (by decide) (List.all_eq_true.mp (by decide)) hauthority
      (by rw [cutLast_append _ hat, List.append_nil]) List.not_mem_nil rfl htail
  | short =>
    have htext : Spelling.short.front host ++ tail = "git@".toList ++ (host ++ ':' :: tail) := by
      change "git@".toList ++ host ++ ":".toList ++ tail = _
      simp
    rw [htext]
    exact split_short url hhost hne (.inr rfl) htail hempty
      fun h => hslash (.trans (List.prefix_append _ _) h)
  | anonymous =>
    have htext : Spelling.anonymous.front host ++ tail = [] ++ (host ++ ':' :: tail) := by
      change host ++ ":".toList ++ tail = _
      simp
    rw [htext]
    exact split_short url hhost hne (.inl rfl) htail hempty
      fun h => hslash (.trans (List.prefix_append _ _) h)
  | rooted =>
    have hrooted : IsPath ('/' :: tail) := List.forall_mem_cons.mpr ⟨.inr rfl, htail⟩
    have htext : Spelling.rooted.front host ++ tail =
        "git@".toList ++ (host ++ ':' :: '/' :: tail) := by
      change "git@".toList ++ host ++ ":/".toList ++ tail = _
      simp
    rw [htext]
    exact split_short url hhost hne (.inr rfl) hrooted (by simp)
      fun h => hslash (List.cons_prefix_cons.mp h).2

end Split

/-! ### The path -/

theorem trimSlashes_between {front slashes : List Char} (hfront : ∀ c ∈ front, c = '/')
    (hslashes : ∀ c ∈ slashes, c = '/') (hhead : path.head?.any (· == '/') = false)
    (hlast : path.getLast?.any (· == '/') = false) :
    trimSlashes (front ++ (path ++ slashes)) = path :=
  dropWhile_both_ends (by simpa using hfront) (by simpa using hslashes) hhead hlast

theorem dropEnding_append (path : List Char) : dropEnding (path ++ ".git".toList) = path := by
  rw [dropEnding, if_pos (List.isSuffixOf_iff_suffix.mpr (List.suffix_append _ _))]
  simp

theorem dropEnding_of_not_suffix (h : ¬ ".git".toList <:+ path) : dropEnding path = path :=
  if_neg (mt List.isSuffixOf_iff_suffix.mp h)

namespace Repository

variable (r : Repository)

theorem path_ne_nil : r.path ≠ [] := by
  obtain ⟨segment, hsegment⟩ := List.exists_mem_of_ne_nil _ r.segments_ne_nil
  exact intercalate_ne_nil hsegment (r.ne_nil_of_mem segment hsegment)

theorem isPath : IsPath r.path := by
  intro c hc
  obtain rfl | ⟨segment, hsegment, hc⟩ := mem_intercalate hc
  · exact .inr rfl
  · exact .inl (r.isPathChar_of_mem segment hsegment c hc)

theorem ends_path {p : Char → Bool} (hp : ∀ c, isPathChar c = true → p c = false) :
    r.path.head?.any p = false ∧ r.path.getLast?.any p = false :=
  ends_intercalate '/' fun segment h =>
    ⟨r.ne_nil_of_mem segment h, fun c hc => hp c (r.isPathChar_of_mem segment h c hc)⟩

/-- With or without an ending, with slashes behind it or not, the path is found. -/
theorem dropEnding_trimSlashes {front slashes : List Char} (hfront : ∀ c ∈ front, c = '/')
    (hslashes : ∀ c ∈ slashes, c = '/') (ending : Bool) :
    dropEnding (trimSlashes
      (front ++ (r.path ++ (if ending then ".git".toList else []) ++ slashes))) = r.path := by
  obtain ⟨hhead, hlast⟩ := r.ends_path (p := (· == '/')) fun c hc =>
    beq_eq_false_iff_ne.mpr (ne_of_isPathChar hc (by decide))
  cases ending with
  | false =>
    rw [if_neg Bool.false_ne_true, List.append_nil, trimSlashes_between hfront hslashes hhead hlast]
    exact dropEnding_of_not_suffix r.not_ending
  | true =>
    have hhead' : (r.path ++ ".git".toList).head?.any (· == '/') = false := by
      rwa [List.head?_append, Option.or_of_isSome (by simpa using r.path_ne_nil)]
    rw [if_pos rfl, trimSlashes_between hfront hslashes hhead' (by simp), dropEnding_append]

end Repository

namespace Spelling

variable (s : Spelling) (r : Repository) (ending : Bool) (slashes : Nat)

theorem isPath_rest : IsPath (r.path ++ (if ending then ".git".toList else []) ++
    List.replicate slashes '/') := by
  intro c hc
  rw [List.mem_append, List.mem_append] at hc
  obtain (hc | hc) | hc := hc
  · exact r.isPath c hc
  · cases ending with
    | false => cases hc
    | true =>
      have hall : ".git".toList.all isPathChar = true := by decide
      exact .inl (List.all_eq_true.mp hall c hc)
  · exact .inr (List.eq_of_mem_replicate hc)

theorem head?_front : (s.front r.host).head?.any isBlank = false ∧ s.front r.host ≠ [] := by
  obtain ⟨c, host, hhost⟩ := List.exists_cons_of_ne_nil r.host_ne_nil
  have hblank : isBlank c = false :=
    isBlank_of_isHostChar (r.isHostChar_host c (hhost ▸ List.mem_cons_self))
  rw [hhost]
  cases s with
  | anonymous => exact ⟨hblank, nofun⟩
  | _ => exact ⟨rfl, nofun⟩

theorem trim_text {before after : List Char} (hbefore : ∀ c ∈ before, isBlank c = true)
    (hafter : ∀ c ∈ after, isBlank c = true) :
    trim (before ++ (s.text r ending slashes ++ after)) = s.text r ending slashes := by
  obtain ⟨hhead, hfront⟩ := s.head?_front r
  have hrest := isPath_rest r ending slashes
  refine trim_between hbefore hafter ?_ ?_
  · rwa [text, List.head?_append, Option.or_of_isSome (by simpa using hfront)]
  · rw [text, List.getLast?_append, Option.or_of_isSome (by simp [r.path_ne_nil])]
    exact (Option.any_eq_false _ _).mpr fun c hc =>
      hrest.isBlank_eq_false (List.mem_of_mem_getLast? hc)

theorem split_text (url : String) :
    split url (s.text r ending slashes) = .ok (r.host, s.root ++
      (r.path ++ (if ending then ".git".toList else []) ++ List.replicate slashes '/')) := by
  obtain ⟨hhead, _⟩ := r.ends_path (p := (· == '/')) fun c hc =>
    beq_eq_false_iff_ne.mpr (ne_of_isPathChar hc (by decide))
  refine split_front url r.isHostChar_host r.host_ne_nil s (isPath_rest r ending slashes) ?_
    (by simp [r.path_ne_nil])
  rwa [List.append_assoc, List.head?_append, Option.or_of_isSome (by simpa using r.path_ne_nil)]

end Spelling

/-- However a repository is written, with or without the ending, with any number of slashes behind
it and any blanks around it, it has one import path, and this is the name of a requirement that is
given only the repository. -/
theorem ofUrl_text (r : Repository) (s : Spelling) (ending : Bool) (slashes : Nat)
    {before after : List Char} (hbefore : ∀ c ∈ before, isBlank c = true)
    (hafter : ∀ c ∈ after, isBlank c = true) :
    let url := String.ofList (before ++ (s.text r ending slashes ++ after))
    ofUrl url = .ok r.importPath ∧
      (Requirement.read (.mapping [(.text "url", .text url)])).outcome =
        .ok { url, name := r.importPath } := by
  intro url
  have hroot : ∀ c ∈ s.root, c = '/' := by
    cases s <;> simp [Spelling.root]
  have hofUrl : ofUrl url = .ok r.importPath := by
    rw [ofUrl, String.toList_ofList, s.trim_text r ending slashes hbefore hafter]
    dsimp only
    rw [s.split_text]
    simp only [bind, Except.bind, r.dropEnding_trimSlashes hroot
      (fun c hc => List.eq_of_mem_replicate hc) ending]
    rw [if_neg (by simp [r.host_ne_nil, r.path_ne_nil])]
    rfl
  have hurl : url ≠ "" := by
    intro hempty
    rw [hempty] at hofUrl
    cases hofUrl
  refine ⟨hofUrl, ?_⟩
  rw [Requirement.read, Value.asRecord, Checked.andThen_eq_ok]
  refine ⟨{ url }, rfl, ?_⟩
  rw [Requirement.complete, if_neg (by simp), if_neg hurl]
  dsimp only
  rw [hofUrl]

/-- A port, an ending, two slashes and blanks around them make no difference. -/
theorem ofUrl_text_port :
    (∀ c ∈ [' ', '\t'], isBlank c = true) ∧ (∀ c ∈ ['\n'], isBlank c = true) ∧
      ofUrl " \thttps://git.a-1.org:8443/Team/mod_~2.x.git//\n" = .ok "git.a-1.org/Team/mod_~2.x" ∧
      (Requirement.read (.mapping
          [(.text "url", .text " \thttps://git.a-1.org:8443/Team/mod_~2.x.git//\n")])).outcome =
        .ok { url := " \thttps://git.a-1.org:8443/Team/mod_~2.x.git//\n",
              name := "git.a-1.org/Team/mod_~2.x" } := by
  have hbefore : ∀ c ∈ [' ', '\t'], isBlank c = true := List.all_eq_true.mp (by decide)
  have hafter : ∀ c ∈ ['\n'], isBlank c = true := List.all_eq_true.mp (by decide)
  let r := Repository.ofAscii "git.a-1.org".toList ["Team".toList, "mod_~2.x".toList]
    ⟨by decide, List.all_eq_true.mp (by decide)⟩
    ⟨by decide, List.forall_mem_cons.mpr ⟨⟨by decide, List.all_eq_true.mp (by decide)⟩,
      List.forall_mem_cons.mpr ⟨⟨by decide, List.all_eq_true.mp (by decide)⟩, List.forall_mem_nil _⟩⟩⟩
    (by decide)
  have h := ofUrl_text r (.webAt "8443".toList (by decide)) true 2 hbefore hafter
  exact ⟨hbefore, hafter, h⟩

end ModulePins.ImportPath
