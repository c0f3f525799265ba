import ModulePins.Proofs.Text.Ascii
import ModulePins.Proofs.Text.Ends
import ModulePins.Url.Basic

/-!
# Locators put together

A locator of a scheme, an authority and a path is cut into just these, as long as no part holds a
mark that divides locators. Its host is what stands in the authority between user and port.
-/

namespace ModulePins.Url

open Text

variable {cs : List Char} {c mark : Char}

/-! ### Characters without a meaning of their own -/

/-- Characters that stand for themselves in a host: they divide nothing and are in lower case. -/
def isHostChar (c : Char) : Bool :=
  !isBlank c && !"/?#:@[]%".toList.contains c && !disguisedMarks.contains c.toNat &&
    lowerFrom none [c] == [c]

def isPathChar (c : Char) : Bool :=
  !isBlank c && !"/?#;:@".toList.contains c

/-- A class of ASCII characters lies within another one if its characters do, one by one. -/
theorem class_subset {p q : Char → Bool} (hp : ∀ c, p c = true → c.toNat < 0x80)
    (h : ∀ n < 0x80, p (Char.ofNat n) = true → q (Char.ofNat n) = true) (hc : p c = true) :
    q c = true := by
  have hq := h c.toNat (hp c hc)
  rw [Char.ofNat_toNat] at hq
  exact hq hc

theorem ascii_of_isAlphanum (h : c.isAlphanum = true) : c.toNat < 0x80 := by
  have hrange := toNat_of_isAlphanum h
  omega

theorem isHostChar_of_ascii (h : (c.isLower || c.isDigit || c == '.' || c == '-') = true) :
    isHostChar c = true := by
  refine class_subset (p := fun c => c.isLower || c.isDigit || c == '.' || c == '-') (fun c hc => ?_)
    (by decide) h
  simp only [Bool.or_eq_true, beq_iff_eq] at hc
  obtain ((hc | hc) | rfl) | rfl := hc
  · have hrange := isLower_range hc
    omega
  · have hrange := isDigit_range hc
    omega
  · decide
  · decide

theorem isPathChar_of_ascii
    (h : (c.isAlphanum || c == '.' || c == '_' || c == '~' || c == '-') = true) :
    isPathChar c = true := by
  refine class_subset (p := fun c => c.isAlphanum || c == '.' || c == '_' || c == '~' || c == '-')
    (fun c hc => ?_) (by decide) h
  simp only [Bool.or_eq_true, beq_iff_eq] at hc
  obtain (((hc | rfl) | rfl) | rfl) | rfl := hc
  · exact ascii_of_isAlphanum hc
  all_goals decide

theorem isBlank_of_isSchemeChar (h : isSchemeChar c = true) : isBlank c = false := by
  have hink : (!isBlank c) = true := by
    refine class_subset (p := isSchemeChar) (q := fun c => !isBlank c) (fun c hc => ?_) (by decide) h
    simp only [isSchemeChar, Bool.or_eq_true, beq_iff_eq] at hc
    obtain ((hc | rfl) | rfl) | rfl := hc
    · exact ascii_of_isAlphanum hc
    all_goals decide
  simpa using hink

section HostChar

variable (h : isHostChar c = true)

include h

theorem isBlank_of_isHostChar : isBlank c = false := by
  simp only [isHostChar, Bool.and_eq_true, Bool.not_eq_true'] at h
  exact h.1.1.1

theorem ne_of_isHostChar (hmark : mark ∈ "/?#:@[]%".toList) : c ≠ mark := by
  simp only [isHostChar, Bool.and_eq_true, Bool.not_eq_true', List.contains_eq_mem,
    decide_eq_false_iff_not] at h
  exact ne_of_mem_of_not_mem hmark h.1.1.2 |>.symm

theorem not_disguised_of_isHostChar : disguisedMarks.contains c.toNat = false := by
  simp only [isHostChar, Bool.and_eq_true, Bool.not_eq_true'] at h
  exact h.1.2

theorem lowerFrom_of_isHostChar (before : Option Char) (rest : List Char) :
    lowerFrom before (c :: rest) = c :: lowerFrom (some c) rest := by
  simp only [isHostChar, Bool.and_eq_true, beq_iff_eq] at h
  have hlower := h.2
  -- The capital sigma, whose form depends on what is around it, has a form in lower case alone, too.
  by_cases hsigma : c = Char.ofNat 0x3A3
  · subst hsigma
    exact absurd hlower (by decide)
  · have hne : (c.toNat == 0x3A3) = false := by
      refine beq_eq_false_iff_ne.mpr fun heq => hsigma ?_
      rw [← heq, Char.ofNat_toNat]
    simp only [lowerFrom, hne, Bool.false_and, Bool.false_eq_true, if_false, List.append_nil]
      at hlower ⊢
    rw [hlower]
    rfl

end HostChar

theorem lowerFrom_host (h : ∀ c ∈ cs, isHostChar c = true) (before : Option Char) :
    lowerFrom before cs = cs := by
  induction cs generalizing before with
  | nil => rfl
  | cons c cs ih =>
    rw [lowerFrom_of_isHostChar (h c List.mem_cons_self),
      ih fun d hd => h d (List.mem_cons_of_mem _ hd)]

theorem isBlank_of_isPathChar (h : isPathChar c = true) : isBlank c = false := by
  simp only [isPathChar, Bool.and_eq_true, Bool.not_eq_true'] at h
  exact h.1

theorem ne_of_isPathChar (h : isPathChar c = true) (hmark : mark ∈ "/?#;:@".toList) :
    c ≠ mark := by
  simp only [isPathChar, Bool.and_eq_true, Bool.not_eq_true', List.contains_eq_mem,
    decide_eq_false_iff_not] at h
  exact ne_of_mem_of_not_mem hmark h.2 |>.symm

/-! ### Cutting at a mark -/

theorem span_before_mark (h : mark ∉ cs) (rest : List Char) :
    (cs ++ mark :: rest).takeWhile (· != mark) = cs ∧
      (cs ++ mark :: rest).dropWhile (· != mark) = mark :: rest :=
  span_append_cons (fun _ hc => bne_iff_ne.mpr (ne_of_mem_of_not_mem hc h)) (by simp) rest

theorem cut_of_not_mem (h : mark ∉ cs) : cut mark cs = (cs, []) := by
  have hall : ∀ c ∈ cs, (c != mark) = true := fun c hc =>
    bne_iff_ne.mpr (ne_of_mem_of_not_mem hc h)
  rw [cut, List.takeWhile_eq_self_iff.mpr hall, List.dropWhile_eq_nil_iff.mpr hall]
  rfl

theorem cutLast_append (front : List Char) (h : mark ∉ cs) :
    (cutLast mark (front ++ mark :: cs)).2 = cs := by
  have hreverse : (front ++ mark :: cs).reverse = cs.reverse ++ mark :: front.reverse := by simp
  rw [cutLast, hreverse, (span_before_mark (by simpa using h) _).1, List.reverse_reverse]

theorem cutLast_of_not_mem (h : mark ∉ cs) : (cutLast mark cs).2 = cs := by
  rw [cutLast, List.takeWhile_eq_self_iff.mpr, List.reverse_reverse]
  intro c hc
  exact bne_iff_ne.mpr (ne_of_mem_of_not_mem (List.mem_reverse.mp hc) h)

/-! ### The parts of a locator -/

def IsAuthority (cs : List Char) : Prop :=
  ∀ c ∈ cs, isHostChar c = true ∨ c = ':' ∨ c = '@'

def IsPath (cs : List Char) : Prop :=
  ∀ c ∈ cs, isPathChar c = true ∨ c = '/'

theorem isAuthority_of_host (h : ∀ c ∈ cs, isHostChar c = true) : IsAuthority cs :=
  fun c hc => .inl (h c hc)

theorem IsAuthority.join (hmark : mark = ':' ∨ mark = '@') {ds : List Char} (hcs : IsAuthority cs)
    (hds : IsAuthority ds) : IsAuthority (cs ++ mark :: ds) := by
  intro c hc
  rw [List.mem_append, List.mem_cons] at hc
  obtain hc | rfl | hc := hc
  · exact hcs c hc
  · exact .inr hmark
  · exact hds c hc

theorem IsAuthority.not_mem (h : IsAuthority cs) (mark : Char)
    (hmark : mark ∈ "/?#[]%".toList) : mark ∉ cs := by
  intro hc
  obtain hhost | rfl | rfl := h mark hc
  · have hsub : ∀ mark ∈ "/?#[]%".toList, mark ∈ "/?#:@[]%".toList := by simp
    exact ne_of_isHostChar hhost (hsub mark hmark) rfl
  · exact absurd hmark (by decide)
  · exact absurd hmark (by decide)

theorem IsPath.not_mem (h : IsPath cs) (mark : Char) (hmark : mark ∈ "?#;:@".toList) :
    mark ∉ cs := by
  intro hc
  obtain hpath | rfl := h mark hc
  · have hsub : ∀ mark ∈ "?#;:@".toList, mark ∈ "/?#;:@".toList := by simp
    exact ne_of_isPathChar hpath (hsub mark hmark) rfl
  · exact absurd hmark (by decide)

theorem IsAuthority.isBlank_eq_false (h : IsAuthority cs) (hc : c ∈ cs) : isBlank c = false := by
  obtain hhost | rfl | rfl := h c hc
  · exact isBlank_of_isHostChar hhost
  · decide
  · decide

theorem IsPath.isBlank_eq_false (h : IsPath cs) (hc : c ∈ cs) : isBlank c = false := by
  obtain hpath | rfl := h c hc
  · exact isBlank_of_isPathChar hpath
  · decide

/-- Nothing is dropped of a text without blanks that begins with no control character. -/
theorem clean_eq (cs : List Char) (hhead : cs.head?.any (fun c => decide (c.toNat ≤ 0x20)) = false)
    (hcs : ∀ c ∈ cs, isBlank c = false) :
    (cs.dropWhile fun c => decide (c.toNat ≤ 0x20)).filter
      (fun c => c != '\t' && c != '\r' && c != '\n') = cs := by
  rw [dropWhile_of_head? hhead, List.filter_eq_self]
  intro c hc
  have hne : ∀ blank, isBlank blank = true → c ≠ blank := by
    rintro blank hblank rfl
    rw [hcs c hc] at hblank
    cases hblank
  simp [hne '\t' (by decide), hne '\r' (by decide), hne '\n' (by decide)]

variable {scheme authority path : List Char}

theorem splitScheme_append (hhead : scheme.head?.any Char.isAlpha = true)
    (hscheme : ∀ c ∈ scheme, isSchemeChar c = true) (rest : List Char) :
    splitScheme (scheme ++ ':' :: rest) = (scheme.map Char.toLower, rest) := by
  have hcolon : ':' ∉ scheme := fun h => absurd (hscheme ':' h) (by decide)
  have hname := (span_before_mark hcolon rest).1
  simp only [splitScheme, hname]
  rw [if_pos (by simpa [hhead] using hscheme), List.drop_append, List.drop_eq_nil_of_le (by omega)]
  simp

theorem splitAuthority_append (h : IsAuthority authority) (path : List Char) :
    splitAuthority ('/' :: '/' :: (authority ++ '/' :: path)) = (authority, '/' :: path) := by
  have hin : ∀ c ∈ authority, (!(c == '/' || c == '?' || c == '#')) = true := by
    intro c hc
    have hne : ∀ mark ∈ "/?#[]%".toList, c ≠ mark := fun mark hmark =>
      ne_of_mem_of_not_mem hc (h.not_mem mark hmark)
    simp [hne '/' (by decide), hne '?' (by decide), hne '#' (by decide)]
  obtain ⟨htake, hdrop⟩ := span_append_cons (c := '/') hin (by decide) path
  simp only [splitAuthority, htake, hdrop]

theorem splitParams_of_not_mem (h : ';' ∉ path) : splitParams path = (path, []) := by
  have hlast : ((path.reverse.takeWhile (· != '/')).reverse).contains ';' = false := by
    rw [List.contains_eq_mem, decide_eq_false_iff_not, List.mem_reverse]
    exact fun hc => h (List.mem_reverse.mp ((List.takeWhile_prefix _).subset hc))
  simp only [splitParams, hlast, Bool.false_eq_true, if_false]

theorem checkAuthority_plain (h : IsAuthority authority) : checkAuthority authority = .ok () := by
  simp [checkAuthority, List.contains_eq_mem, h.not_mem '[' (by decide),
    h.not_mem ']' (by decide)]

theorem checkCharacters_plain (h : IsAuthority authority) :
    checkCharacters authority = .ok () := by
  have hnone : (authority.any fun c => disguisedMarks.contains c.toNat) = false := by
    rw [List.any_eq_false]
    intro c hc
    obtain hhost | rfl | rfl := h c hc
    · simpa using not_disguised_of_isHostChar hhost
    · decide
    · decide
  rw [checkCharacters, hnone]
  rfl

theorem split_append (hhead : scheme.head?.any Char.isAlpha = true)
    (hscheme : ∀ c ∈ scheme, isSchemeChar c = true) (hauthority : IsAuthority authority)
    (hpath : IsPath path) :
    split (scheme ++ ':' :: '/' :: '/' :: (authority ++ '/' :: path)) =
      .ok { scheme := scheme.map Char.toLower, authority, path := '/' :: path, params := [],
            query := [], fragment := [] } := by
  have hrooted : IsPath ('/' :: path) := List.forall_mem_cons.mpr ⟨.inr rfl, hpath⟩
  have hclean := clean_eq (scheme ++ ':' :: '/' :: '/' :: (authority ++ '/' :: path))
    (by
      rw [List.head?_append]
      cases scheme with
      | nil => exact absurd hhead (by decide)
      | cons c scheme =>
        have hrange := isAlpha_range (by simpa using hhead : c.isAlpha = true)
        have hlow : 0x20 < c.toNat := by omega
        simpa using hlow)
    (by
      intro c hc
      simp only [List.mem_append, List.mem_cons] at hc
      obtain hc | rfl | rfl | rfl | hc | rfl | hc := hc
      · exact isBlank_of_isSchemeChar (hscheme c hc)
      any_goals decide
      · exact hauthority.isBlank_eq_false hc
      · exact hpath.isBlank_eq_false hc)
  simp only [split, hclean, splitScheme_append hhead hscheme,
    splitAuthority_append hauthority, checkAuthority_plain hauthority,
    cut_of_not_mem (hrooted.not_mem '#' (by decide)),
    cut_of_not_mem (hrooted.not_mem '?' (by decide)),
    checkCharacters_plain hauthority,
    splitParams_of_not_mem (hrooted.not_mem ';' (by decide)), ite_self]
  rfl

/-! ### The host -/

theorem host_eq {url : Url} {host port : List Char} (hhost : ∀ c ∈ host, isHostChar c = true)
    (hport : '[' ∉ port) (hplace : (cutLast '@' url.authority).2 = host ++ port)
    (hstop : port.takeWhile (· != ':') = []) : url.host = host := by
  have hbracket : (host ++ port).contains '[' = false := by
    have hno : '[' ∉ host := fun hc => ne_of_isHostChar (hhost _ hc) (by decide) rfl
    simpa [List.contains_eq_mem] using ⟨hno, hport⟩
  have hcolon : ∀ c ∈ host, (c != ':') = true := fun c hc =>
    bne_iff_ne.mpr (ne_of_isHostChar (hhost c hc) (by decide))
  have hzone : host.takeWhile (· != '%') = host := List.takeWhile_eq_self_iff.mpr fun c hc =>
    bne_iff_ne.mpr (ne_of_isHostChar (hhost c hc) (by decide))
  simp only [Url.host, hplace, hbracket, Bool.false_eq_true, if_false, cut,
    (span_append hcolon hstop).1, hzone, lower, String.toList_ofList, lowerFrom_host hhost,
    List.drop_length, List.append_nil]

end ModulePins.Url
