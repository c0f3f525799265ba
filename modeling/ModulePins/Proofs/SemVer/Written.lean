import ModulePins.SemVer.Constraint
import ModulePins.Proofs.Sequence
import ModulePins.Proofs.Text.Ends

/-!
# The text of comparators and groups

A comparator is written as an operator, if any, and a body of numbers and labels. So no text of a
group holds a bar, none ends in an operator, and without a dash none names a pre-release.
-/

namespace ModulePins

open SemVer Text Sequence

namespace Comparator

/-- Characters of the numbers and labels of a comparator. -/
def isBodyChar (c : Char) : Bool :=
  isLabelChar c || c == '*' || c == '+'

/-- Characters that stand in front of the numbers. -/
def isFrontChar (c : Char) : Bool :=
  c == 'v' || Range.endsOperator (some c)

variable {cs rest : List Char}

theorem isBodyChar_of_isDigit {c : Char} (h : c.isDigit = true) : isBodyChar c = true := by
  simp [isBodyChar, isLabelChar, Char.isAlphanum, h]

theorem isBodyChar_of_isLabelChar {c : Char} (h : isLabelChar c = true) : isBodyChar c = true := by
  simp [isBodyChar, h]

theorem splitOperator_append (cs : List Char) :
    ∃ front, cs = front ++ (splitOperator cs).2 ∧ ∀ c ∈ front, isFrontChar c = true := by
  unfold splitOperator
  split
  · exact ⟨['<', '='], rfl, List.all_eq_true.mp rfl⟩
  · exact ⟨['<'], rfl, List.all_eq_true.mp rfl⟩
  · exact ⟨['>', '='], rfl, List.all_eq_true.mp rfl⟩
  · exact ⟨['>'], rfl, List.all_eq_true.mp rfl⟩
  · exact ⟨['='], rfl, List.all_eq_true.mp rfl⟩
  · exact ⟨['^'], rfl, List.all_eq_true.mp rfl⟩
  · exact ⟨['~'], rfl, List.all_eq_true.mp rfl⟩
  · exact ⟨[], rfl, by simp⟩

/-- Between `cs` and what is left of it stand characters of numbers and labels only. -/
def BodyBefore (cs rest : List Char) : Prop :=
  ∃ body, cs = body ++ rest ∧ ∀ c ∈ body, isBodyChar c = true

theorem BodyBefore.refl (cs : List Char) : BodyBefore cs cs :=
  ⟨[], rfl, by simp⟩

theorem BodyBefore.trans {cs mid rest : List Char} (h : BodyBefore cs mid)
    (h' : BodyBefore mid rest) : BodyBefore cs rest := by
  obtain ⟨body, rfl, hbody⟩ := h
  obtain ⟨body', rfl, hbody'⟩ := h'
  exact ⟨body ++ body', by rw [List.append_assoc],
    fun c hc => (List.mem_append.mp hc).elim (hbody c) (hbody' c)⟩

theorem BodyBefore.cons {cs : List Char} {c : Char} (hc : isBodyChar c = true)
    (h : BodyBefore cs rest) : BodyBefore (c :: cs) rest := by
  obtain ⟨body, rfl, hbody⟩ := h
  exact ⟨c :: body, rfl, List.forall_mem_cons.mpr ⟨hc, hbody⟩⟩

theorem BodyBefore.subset {cs : List Char} (h : BodyBefore cs rest) : rest ⊆ cs := by
  obtain ⟨body, rfl, _⟩ := h
  exact List.subset_append_right body rest

theorem bodyBefore_dropWhile {p : Char → Bool} (hp : ∀ c, p c = true → isBodyChar c = true)
    (cs : List Char) : BodyBefore cs (cs.dropWhile p) :=
  ⟨cs.takeWhile p, List.takeWhile_append_dropWhile.symm,
    fun c hc => hp c (List.all_eq_true.mp List.all_takeWhile c hc)⟩

theorem splitPart?_body {part : Part} (h : splitPart? cs = some (part, rest)) :
    BodyBefore cs rest := by
  cases cs with
  | nil => cases h
  | cons c cs =>
    rw [splitPart?] at h
    split at h
    · rename_i hwild
      cases h
      refine (BodyBefore.refl _).cons ?_
      simp only [Bool.or_eq_true, beq_iff_eq] at hwild
      rcases hwild with (rfl | rfl) | rfl <;> decide
    · split at h
      · rename_i hzero
        cases h
        refine (BodyBefore.refl _).cons ?_
        rw [eq_of_beq hzero]
        decide
      · split at h
        · cases h
          exact bodyBefore_dropWhile (fun _ => isBodyChar_of_isDigit) (c :: cs)
        · cases h

theorem splitNext?_body {part : Option Part} (h : splitNext? cs = some (part, rest)) :
    BodyBefore cs rest := by
  unfold splitNext? at h
  split at h
  · obtain ⟨⟨part, rest⟩, hpart, heq⟩ := Option.map_eq_some_iff.mp h
    cases heq
    exact (splitPart?_body hpart).cons (by decide)
  · cases h
    exact BodyBefore.refl cs

theorem splitLabel_body {mark : Char} (hmark : isBodyChar mark = true) (cs : List Char) :
    BodyBefore cs (splitLabel mark cs).2 ∧ ((splitLabel mark cs).1 ≠ [] → mark ∈ cs) := by
  cases cs with
  | nil => exact ⟨BodyBefore.refl [], by simp [splitLabel]⟩
  | cons c cs =>
    rw [splitLabel]
    split
    · rename_i hc
      rw [eq_of_beq hc]
      exact ⟨(bodyBefore_dropWhile (fun _ => isBodyChar_of_isLabelChar) cs).cons hmark, by simp⟩
    · exact ⟨BodyBefore.refl (c :: cs), by simp⟩

/-- What `written?` cuts is a front and a body; a pre-release has its dash in the body. -/
theorem written?_append {w : Written} (h : written? cs = some w) :
    ∃ front body, cs = front ++ body ∧ body ≠ [] ∧ (∀ c ∈ front, isFrontChar c = true) ∧
      (∀ c ∈ body, isBodyChar c = true) ∧ (w.prerelease ≠ [] → '-' ∈ body) := by
  obtain ⟨mark, hmark, hcs⟩ : ∃ mark : List Char, (∀ c ∈ mark, isFrontChar c = true) ∧
      cs = mark ++ (if cs.head? == some 'v' then cs.drop 1 else cs) := by
    split
    · rename_i hv
      obtain ⟨cs', rfl⟩ : ∃ cs', cs = 'v' :: cs' := List.head?_eq_some_iff.mp (eq_of_beq hv)
      exact ⟨['v'], List.all_eq_true.mp rfl, rfl⟩
    · exact ⟨[], by simp, rfl⟩
  simp only [written?, Option.bind_eq_bind] at h
  generalize (if cs.head? == some 'v' then cs.drop 1 else cs) = unmarked at h hcs
  obtain ⟨operators, hoperators, hfront⟩ := splitOperator_append unmarked
  generalize splitOperator unmarked = split at h hoperators
  obtain ⟨operator, body⟩ := split
  obtain ⟨⟨major, afterMajor⟩, hmajor, h⟩ := Option.bind_eq_some_iff.mp h
  obtain ⟨⟨minor, afterMinor⟩, hminor, h⟩ := Option.bind_eq_some_iff.mp h
  obtain ⟨patch, afterPatch, hpatch, h⟩ : ∃ (patch : Option Part) (afterPatch : List Char),
      BodyBefore afterMinor afterPatch ∧
      (if (splitLabel '+' (splitLabel '-' afterPatch).2).2.isEmpty then
        some { operator, major, minor, patch, prerelease := (splitLabel '-' afterPatch).1,
               build := (splitLabel '+' (splitLabel '-' afterPatch).2).1 }
      else none) = some w := by
    dsimp only at h
    split at h
    · exact ⟨none, afterMinor, BodyBefore.refl afterMinor, h⟩
    · obtain ⟨⟨patch, afterPatch⟩, hpatch, h⟩ := Option.bind_eq_some_iff.mp h
      exact ⟨patch, afterPatch, splitNext?_body hpatch, h⟩
  have hnumbers : BodyBefore body afterPatch :=
    (splitPart?_body hmajor).trans ((splitNext?_body hminor).trans hpatch)
  obtain ⟨hpre, hdash⟩ := splitLabel_body (by decide : isBodyChar '-' = true) afterPatch
  obtain ⟨hbuild, _⟩ :=
    splitLabel_body (by decide : isBodyChar '+' = true) (splitLabel '-' afterPatch).2
  split at h
  · rename_i hend
    cases h
    rw [List.isEmpty_iff.mp hend] at hbuild
    obtain ⟨chars, hchars, hbody⟩ := hnumbers.trans (hpre.trans hbuild)
    rw [List.append_nil] at hchars
    refine ⟨mark ++ operators, body, ?_, ?_, ?_, hchars ▸ hbody, fun hlabel =>
      hnumbers.subset (hdash hlabel)⟩
    · rw [List.append_assoc, ← hoperators, ← hcs]
    · rintro rfl
      cases hmajor
    · exact fun c hc => (List.mem_append.mp hc).elim (hmark c) (hfront c)
  · cases h

theorem prerelease_of_ofWritten? {w : Written} {c : Comparator} {v : SemVer}
    (h : ofWritten? w = some c) (hw : w.prerelease = []) (hc : c.operand = .full v) :
    v.prerelease = [] := by
  simp only [ofWritten?, Option.bind_eq_bind, hw] at h
  obtain ⟨major, _, h⟩ := Option.bind_eq_some_iff.mp h
  obtain ⟨minor, _, h⟩ := Option.bind_eq_some_iff.mp h
  obtain ⟨patch, _, h⟩ := Option.bind_eq_some_iff.mp h
  cases major with
  | none => grind
  | some major =>
    cases minor with
    | none => grind
    | some minor =>
      cases patch with
      | none => grind
      | some patch =>
        obtain ⟨prerelease, hpre, h⟩ := Option.bind_eq_some_iff.mp h
        obtain ⟨build, _, h⟩ := Option.bind_eq_some_iff.mp h
        cases hpre
        cases h
        cases hc
        rfl

theorem readComparator_eq_ok {c : Comparator} :
    Group.readComparator cs = .ok c ↔ ∃ w, written? cs = some w ∧ ofWritten? w = some c := by
  rw [Group.readComparator, ← Option.bind_eq_some_iff]
  cases (written? cs).bind ofWritten? <;> simp

theorem readEnd_eq_ok {operator : List Char} {c : Comparator} :
    Group.readEnd operator cs = .ok c ↔
      ∃ w, written? (operator ++ cs) = some w ∧ ofWritten? w = some c := by
  rw [Group.readEnd]
  cases written? (operator ++ cs) with
  | none => simp
  | some w => cases hw : ofWritten? w <;> simp [hw]

theorem chars_of_written? {w : Written} (h : written? cs = some w) :
    ∀ c ∈ cs, isFrontChar c = true ∨ isBodyChar c = true := by
  obtain ⟨front, body, rfl, _, hfront, hbody, _⟩ := written?_append h
  intro c hc
  rcases List.mem_append.mp hc with hc | hc
  · exact .inl (hfront c hc)
  · exact .inr (hbody c hc)

theorem isBodyChar_of_getLast? {w : Written} (h : written? cs = some w) {c : Char}
    (hc : cs.getLast? = some c) : isBodyChar c = true := by
  obtain ⟨front, body, rfl, hne, _, hbody, _⟩ := written?_append h
  rw [List.getLast?_append, Option.or_of_isSome (by simpa using hne)] at hc
  exact hbody c (List.mem_of_mem_getLast? hc)

theorem prerelease_of_written? {w : Written} (h : written? cs = some w) (hcs : '-' ∉ cs) :
    w.prerelease = [] := by
  obtain ⟨front, body, rfl, _, _, _, hdash⟩ := written?_append h
  exact Classical.byContradiction fun hne => hcs (List.mem_append_right _ (hdash hne))

end Comparator

/-! ### Pieces -/

theorem SemVer.splitAt_eq_splitOn (sep : Char) (cs : List Char) :
    SemVer.splitAt sep cs = cs.splitOn sep := by
  induction cs with
  | nil => rfl
  | cons c cs ih =>
    rw [SemVer.splitAt, List.splitOn_cons_eq_if_modifyHead, ih]
    cases hpieces : cs.splitOn sep with
    | nil => exact absurd hpieces (List.splitOn_ne_nil _ _)
    | cons piece pieces => rfl

theorem SemVer.intercalate_splitAt (sep : Char) (cs : List Char) :
    [sep].intercalate (SemVer.splitAt sep cs) = cs := by
  rw [SemVer.splitAt_eq_splitOn, List.intercalate_splitOn]

theorem SemVer.splitAt_intercalate {sep : Char} {pieces : List (List Char)}
    (h : ∀ piece ∈ pieces, sep ∉ piece) (hne : pieces ≠ []) :
    SemVer.splitAt sep ([sep].intercalate pieces) = pieces := by
  rw [SemVer.splitAt_eq_splitOn, List.splitOn_intercalate sep h hne]

namespace Group

variable {cs : List Char} {c : Char} {g : Group}

theorem splitDash_ne_nil (cs : List Char) : splitDash cs ≠ [] := by
  fun_cases splitDash cs <;> simp

theorem mem_splitDash (hc : c ∈ cs) (hspace : c ≠ ' ') (hdash : c ≠ '-') :
    ∃ piece ∈ splitDash cs, c ∈ piece := by
  fun_induction splitDash cs with
  | case1 rest ih =>
    simp only [List.mem_cons, hspace, hdash, false_or] at hc
    obtain ⟨piece, hpiece, hmem⟩ := ih hc
    exact ⟨piece, List.mem_cons_of_mem _ hpiece, hmem⟩
  | case2 d rest _ piece pieces hrest ih =>
    rcases List.mem_cons.mp hc with rfl | hc
    · exact ⟨c :: piece, List.mem_cons_self, List.mem_cons_self⟩
    · obtain ⟨found, hfound, hmem⟩ := ih hc
      rw [hrest] at hfound
      rcases List.mem_cons.mp hfound with rfl | hfound
      · exact ⟨d :: found, List.mem_cons_self, List.mem_cons_of_mem _ hmem⟩
      · exact ⟨found, List.mem_cons_of_mem _ hfound, hmem⟩
  | case3 d rest _ hnil => exact absurd hnil (splitDash_ne_nil rest)
  | case4 => cases hc

theorem splitDash_of_no_dash (h : '-' ∉ cs) : splitDash cs = [cs] := by
  fun_induction splitDash cs with
  | case1 rest ih => simp at h
  | case2 d rest _ piece pieces hrest ih =>
    have hpieces := ih (fun hmem => h (List.mem_cons_of_mem _ hmem))
    rw [hrest] at hpieces
    cases hpieces
    rfl
  | case3 d rest _ hnil => exact absurd hnil (splitDash_ne_nil rest)
  | case4 => rfl

theorem bar_not_mem_of_read (h : read cs = .ok g) : '|' ∉ cs := by
  intro hbar
  have hwritten : ∀ {piece w}, Comparator.written? piece = some w → '|' ∉ piece := by
    intro piece w hw hmem
    rcases Comparator.chars_of_written? hw _ hmem with hchar | hchar <;> cases hchar
  unfold read at h
  split at h
  · rename_i hempty
    rw [List.isEmpty_iff.mp hempty] at hbar
    cases hbar
  · obtain ⟨piece, hpiece, hmem⟩ := mem_splitDash hbar (by decide) (by decide)
    split at h
    · rename_i low high hpieces
      obtain ⟨_, hlow, h⟩ := bind_eq_ok.mp h
      obtain ⟨_, hhigh, _⟩ := bind_eq_ok.mp h
      obtain ⟨_, hlow, _⟩ := Comparator.readEnd_eq_ok.mp hlow
      obtain ⟨_, hhigh, _⟩ := Comparator.readEnd_eq_ok.mp hhigh
      rw [hpieces] at hpiece
      simp only [List.mem_cons, List.not_mem_nil, or_false] at hpiece
      rcases hpiece with rfl | rfl
      · exact hwritten hlow (List.mem_append_right _ hmem)
      · exact hwritten hhigh (List.mem_append_right _ hmem)
    · obtain ⟨comparators, hread, _⟩ := bind_eq_ok.mp h
      rw [← SemVer.intercalate_splitAt ' ' cs] at hbar
      rcases mem_intercalate hbar with heq | ⟨word, hword, hmem⟩
      · cases heq
      · obtain ⟨_, hword⟩ := exists_mapM_eq_ok.mp ⟨_, hread⟩ word hword
        obtain ⟨_, hword, _⟩ := Comparator.readComparator_eq_ok.mp hword
        exact hwritten hword hmem
    · cases h

/-- A group without a dash is a row of comparators. -/
theorem read_of_no_dash (h : '-' ∉ cs) (hne : cs ≠ []) :
    read cs = ((SemVer.splitAt ' ' cs).mapM readComparator).map Group.mk := by
  rw [read, if_neg (by simpa using hne), splitDash_of_no_dash h]
  cases (SemVer.splitAt ' ' cs).mapM readComparator <;> rfl

end Group

end ModulePins
