import ModulePins.Proofs.SemVer.Normal

/-!
# The groups of an expression

An expression is read group by group. Bars between two expressions put their groups side by side. A
single group without dashes is a row of words, each a comparator, and a gap between two such
expressions puts their rows behind each other.
-/

namespace ModulePins

open SemVer Text Sequence

variable {cs ds : List Char} {c : Char}

namespace Range

/-! ### Splitting at bars -/

theorem splitBars_ne_nil (cs : List Char) : splitBars cs ≠ [] := by
  fun_cases splitBars cs <;> simp

/-- A character that begins no pair of bars goes to the first piece. -/
theorem splitBars_cons_of_lone (h : c = '|' → cs.head? ≠ some '|') :
    splitBars (c :: cs) = (splitBars cs).modifyHead (c :: ·) := by
  obtain ⟨piece, pieces, hcs⟩ := List.exists_cons_of_ne_nil (splitBars_ne_nil cs)
  rw [splitBars, hcs]
  · rfl
  · rintro rest hc rfl
    exact h hc rfl

theorem splitBars_cons (hc : c ≠ '|') (cs : List Char) :
    splitBars (c :: cs) = (splitBars cs).modifyHead (c :: ·) :=
  splitBars_cons_of_lone fun hbar => absurd hbar hc

theorem exists_piece_of_lone_bar (hcs : '|' ∉ cs) (hds : ds.head? ≠ some '|') :
    ∃ piece ∈ splitBars (cs ++ '|' :: ds), '|' ∈ piece := by
  induction cs with
  | nil =>
    obtain ⟨piece, pieces, hpieces⟩ := List.exists_cons_of_ne_nil (splitBars_ne_nil ds)
    rw [List.nil_append, splitBars_cons_of_lone fun _ => hds, hpieces]
    exact ⟨'|' :: piece, List.mem_cons_self, List.mem_cons_self⟩
  | cons c cs ih =>
    rw [List.mem_cons, not_or] at hcs
    obtain ⟨found, hfound, hbar⟩ := ih hcs.2
    obtain ⟨piece, pieces, hpieces⟩ :=
      List.exists_cons_of_ne_nil (splitBars_ne_nil (cs ++ '|' :: ds))
    rw [List.cons_append, splitBars_cons (Ne.symm hcs.1), hpieces]
    rw [hpieces] at hfound
    rcases List.mem_cons.mp hfound with rfl | hfound
    · exact ⟨c :: found, List.mem_cons_self, List.mem_cons_of_mem _ hbar⟩
    · exact ⟨found, List.mem_cons_of_mem _ hfound, hbar⟩

theorem mem_of_mem_splitBars {piece : List Char} (h : piece ∈ splitBars cs) (hc : c ∈ piece) :
    c ∈ cs := by
  fun_induction splitBars cs generalizing piece with
  | case1 rest ih =>
    rcases List.mem_cons.mp h with rfl | h
    · cases hc
    · exact List.mem_cons_of_mem _ (List.mem_cons_of_mem _ (ih h hc))
  | case2 d rest _ first pieces hrest ih =>
    rw [hrest] at ih
    rcases List.mem_cons.mp h with rfl | h
    · rcases List.mem_cons.mp hc with rfl | hc
      · exact List.mem_cons_self
      · exact List.mem_cons_of_mem _ (ih List.mem_cons_self hc)
    · exact List.mem_cons_of_mem _ (ih (List.mem_cons_of_mem _ h) hc)
  | case3 d rest _ hnil => exact absurd hnil (splitBars_ne_nil rest)
  | case4 =>
    cases List.mem_singleton.mp h
    cases hc

/-- A pair of bars ends a piece, if no bar stands in the pieces before it. -/
theorem splitBars_append (h : ∀ piece ∈ splitBars cs, '|' ∉ piece) {spaces : List Char}
    (hspaces : '|' ∉ spaces) (ds : List Char) :
    ∃ pieces last, splitBars cs = pieces ++ [last] ∧
      splitBars (cs ++ (spaces ++ '|' :: '|' :: ds)) =
        pieces ++ (last ++ spaces) :: splitBars ds := by
  fun_induction splitBars cs with
  | case1 rest ih =>
    obtain ⟨pieces, last, hrest, happend⟩ := ih fun piece hpiece =>
      h piece (List.mem_cons_of_mem _ hpiece)
    refine ⟨[] :: pieces, last, by rw [hrest]; rfl, ?_⟩
    rw [List.cons_append, List.cons_append, splitBars, happend]
    rfl
  | case2 d rest _ first others hrest ih =>
    have hd : d ≠ '|' := by
      rintro rfl
      exact h _ List.mem_cons_self List.mem_cons_self
    obtain ⟨pieces, last, hpieces, happend⟩ := ih fun piece hpiece => by
      rw [hrest] at hpiece
      rcases List.mem_cons.mp hpiece with rfl | hpiece
      · exact fun hbar => h _ List.mem_cons_self (List.mem_cons_of_mem _ hbar)
      · exact h piece (List.mem_cons_of_mem _ hpiece)
    rw [hrest] at hpieces
    rw [List.cons_append, splitBars_cons hd, happend]
    cases pieces with
    | nil =>
      cases hpieces
      exact ⟨[], d :: first, rfl, rfl⟩
    | cons piece pieces =>
      cases hpieces
      exact ⟨(d :: first) :: pieces, last, rfl, rfl⟩
  | case3 d rest _ hnil => exact absurd hnil (splitBars_ne_nil rest)
  | case4 =>
    refine ⟨[], [], rfl, ?_⟩
    induction spaces with
    | nil => simp [splitBars]
    | cons d spaces ih =>
      rw [List.mem_cons, not_or] at hspaces
      have hrest := ih hspaces.2
      rw [List.nil_append, List.nil_append, List.nil_append] at hrest ⊢
      rw [List.cons_append, splitBars_cons (Ne.symm hspaces.1), hrest]
      rfl

theorem map_trim_spaces_append {spaces : List Char} (h : ∀ d ∈ spaces, d = ' ') (cs : List Char) :
    (splitBars (spaces ++ cs)).map trim = (splitBars cs).map trim := by
  induction spaces with
  | nil => rfl
  | cons d spaces ih =>
    rw [List.forall_mem_cons] at h
    obtain ⟨rfl, h⟩ := h
    rw [← ih h, List.cons_append, splitBars_cons (by decide)]
    obtain ⟨piece, pieces, hrest⟩ := List.exists_cons_of_ne_nil (splitBars_ne_nil (spaces ++ cs))
    rw [hrest, List.modifyHead_cons, List.map_cons, List.map_cons]
    have hspace : ∀ d ∈ [' '], isBlank d = true := List.all_eq_true.mp rfl
    exact congrArg (· :: pieces.map trim) (trim_blank_append hspace piece)

/-! ### Groups -/

def groupTexts (cs : List Char) : List (List Char) :=
  (splitBars (normalize cs)).map trim

theorem read_eq_ok {r : Range} :
    read cs = .ok r ↔ (groupTexts cs).mapM Group.read = .ok r.groups := by
  rw [read, readExpression, bind_eq_ok, groupTexts, List.mapM_map]
  constructor
  · rintro ⟨groups, hgroups, h⟩
    cases h
    exact hgroups
  · exact fun h => ⟨r.groups, h, rfl⟩

theorem mem_groupTexts {piece : List Char} (h : piece ∈ groupTexts cs) (hc : c ∈ piece) :
    c = ' ' ∨ c ∈ cs := by
  obtain ⟨group, hgroup, rfl⟩ := List.mem_map.mp h
  exact mem_normalize (mem_of_mem_splitBars hgroup (mem_of_mem_trim hc))

theorem bar_not_mem_splitBars {r : Range} (h : read cs = .ok r) :
    ∀ piece ∈ splitBars (normalize cs), '|' ∉ piece := by
  intro piece hpiece hbar
  obtain ⟨g, hg⟩ := exists_mapM_eq_ok.mp ⟨_, read_eq_ok.mp h⟩ _ (List.mem_map_of_mem hpiece)
  exact Group.bar_not_mem_of_read hg (mem_trim (by decide) hbar)

theorem head?_bare_spaced (h : (bare (spaced cs)).head? = some '|') : cs.head? = some '|' := by
  have hbare : ∀ ds : List Char, (bare ds).head? = some '|' → ds.head? = some '|' := by
    intro ds hds
    cases ds with
    | nil => cases hds
    | cons d ds =>
      rw [bare, dropGaps, if_neg (by simp [endsOperator]), dropMarks] at hds
      split at hds
      · rename_i hmark
        obtain ⟨_, _, e, es, hes, he⟩ := startsMark_cons_iff.mp hmark
        rw [hes, dropMarks_of_isDecimal he] at hds
        cases hds
        cases he
      · exact hds
  have hspaced := hbare _ h
  rw [spaced, List.head?_map] at hspaced
  obtain ⟨c, hc, hbar⟩ := Option.map_eq_some_iff.mp hspaced
  split at hbar
  · cases hbar
  · rw [hc, hbar]

theorem head?_collapse (h : (collapse cs).head? = some c) :
    cs.head?.any isBlank = true ∨ cs.head? = some c := by
  cases cs with
  | nil => cases h
  | cons d cs =>
    by_cases hd : isBlank d = true
    · exact .inl hd
    · right
      rw [collapse_cons_ink (by simpa using hd)] at h
      split at h
      · exact h
      · exact h

theorem bar_not_mem_of_read {r : Range} (h : read cs = .ok r) (hbars : ¬ ['|', '|'] <:+: cs) :
    '|' ∉ cs := by
  intro hbar
  -- The first bar stays alone in the plain form, so it gets into a piece.
  obtain ⟨front, rest, rfl, hfront⟩ := List.eq_append_cons_of_mem hbar
  have hrest : rest.head? ≠ some '|' := by
    intro hhead
    obtain ⟨rest, rfl⟩ := List.head?_eq_some_iff.mp hhead
    exact hbars ⟨front, rest, by simp⟩
  have hplain : bare (spaced (front ++ '|' :: rest)) =
      bare (spaced front) ++ '|' :: bare (spaced rest) := by
    rw [spaced_append]
    exact bare_append_cons (.inr rfl) _ _ fun hstarts => by cases hstarts
  obtain ⟨spaces, hspaces, hcollapse⟩ :=
    collapse_append_cons (by decide : isBlank '|' = false) (bare (spaced front))
      (bare (spaced rest))
  obtain ⟨behind, hbehind, hlone⟩ : ∃ behind : List Char,
      collapse ('|' :: bare (spaced rest)) = '|' :: behind ∧ behind.head? ≠ some '|' := by
    rw [collapse_cons_ink (by decide)]
    split
    · exact ⟨_, rfl, by simp⟩
    · rename_i hgap
      refine ⟨_, rfl, fun hhead => ?_⟩
      rcases head?_collapse hhead with hblank | hhead'
      · rw [hblank, Bool.true_and, Bool.not_eq_true, Bool.not_eq_false', List.isEmpty_iff] at hgap
        rw [collapse, hgap] at hhead
        cases hhead
      · exact hrest (head?_bare_spaced hhead')
  have hbefore : '|' ∉ collapse (bare (spaced front)) ++ spaces := by
    intro hmem
    rcases List.mem_append.mp hmem with hmem | hmem
    · exact (mem_normalize hmem).elim (by decide) hfront
    · exact absurd (hspaces _ hmem) (by decide)
  obtain ⟨piece, hpiece, hmem⟩ := exists_piece_of_lone_bar hbefore hlone
  refine bar_not_mem_splitBars h piece ?_ hmem
  rwa [normalize_eq, hplain, hcollapse, hbehind, ← List.append_assoc]

theorem groupTexts_bars {r : Range} (h : read cs = .ok r) (ds : List Char) :
    groupTexts (cs ++ '|' :: '|' :: ds) = groupTexts cs ++ groupTexts ds := by
  obtain ⟨before, after, hspaces, hnormal⟩ := normalize_bars cs ds
  have hbefore : ∀ d ∈ before, d = ' ' := fun d hd => hspaces d (List.mem_append_left _ hd)
  have hafter : ∀ d ∈ after, d = ' ' := fun d hd => hspaces d (List.mem_append_right _ hd)
  have hblank : ∀ d ∈ before, isBlank d = true := by
    intro d hd
    rw [hbefore d hd]
    decide
  obtain ⟨pieces, last, hcs, happend⟩ := splitBars_append (bar_not_mem_splitBars h)
    (fun hbar => absurd (hbefore _ hbar) (by decide)) (after ++ normalize ds)
  rw [groupTexts, groupTexts, groupTexts, hnormal, happend, hcs, List.map_append, List.map_cons,
    List.map_append, List.map_singleton, map_trim_spaces_append hafter, trim_append_blank hblank,
    List.append_assoc, List.singleton_append]

/-! ### Rows -/

/-- The words of an expression without gaps and marks. -/
def rowWords (cs : List Char) : List (List Char) :=
  words (bare (spaced cs))

theorem normalize_eq_intercalate (cs : List Char) :
    normalize cs = [' '].intercalate (rowWords cs) :=
  rfl

theorem blank_of_dropMarks {before : Option Char}
    (h : ∀ c ∈ dropMarks before cs, isBlank c = true) : ∀ c ∈ cs, isBlank c = true := by
  induction cs generalizing before with
  | nil => simp
  | cons c cs ih =>
    rw [dropMarks] at h
    split at h
    · rename_i hmark
      obtain ⟨_, _, d, ds, rfl, hd⟩ := startsMark_cons_iff.mp hmark
      rw [dropMarks_of_isDecimal hd] at h
      have := h d List.mem_cons_self
      rw [isBlank_of_isDecimal hd] at this
      cases this
    · rw [List.forall_mem_cons] at h ⊢
      exact ⟨h.1, ih h.2⟩

theorem blank_of_dropGaps {before : Option Char}
    (h : ∀ c ∈ dropGaps before cs, isBlank c = true) : ∀ c ∈ cs, isBlank c = true := by
  induction cs generalizing before with
  | nil => simp
  | cons c cs ih =>
    rw [dropGaps] at h
    split at h
    · rename_i hgap
      simp only [Bool.and_eq_true] at hgap
      exact List.forall_mem_cons.mpr ⟨hgap.1.1, ih h⟩
    · rw [List.forall_mem_cons] at h ⊢
      exact ⟨h.1, ih h.2⟩

theorem rowWords_eq_nil_iff : rowWords cs = [] ↔ IsGap cs := by
  rw [rowWords, words_eq_nil_iff]
  constructor
  · intro h c hc
    have hspaced := blank_of_dropGaps (blank_of_dropMarks h) _ (List.mem_map_of_mem hc)
    by_cases hcomma : c = ','
    · exact .inr hcomma
    · left
      simpa [hcomma] using hspaced
  · intro h
    rw [bare_of_blank h.blank_spaced]
    exact h.blank_spaced

theorem splitAt_normalize (h : ¬ IsGap cs) : SemVer.splitAt ' ' (normalize cs) = rowWords cs := by
  rw [normalize_eq_intercalate, splitAt_intercalate _ (mt rowWords_eq_nil_iff.mp h)]
  intro word hword hspace
  have := ((mem_words hword).2 ' ' hspace).1
  cases this

/-- An expression without bars and dashes is a row of comparators. -/
theorem read_row {r : Range} (hbar : '|' ∉ cs) (hdash : '-' ∉ cs) (hcs : ¬ IsGap cs) :
    read cs = .ok r ↔
      ∃ comparators, (rowWords cs).mapM Group.readComparator = .ok comparators ∧
        r = ⟨[⟨comparators⟩]⟩ := by
  have hmem : ∀ {d}, d ≠ ' ' → d ∉ cs → d ∉ normalize cs :=
    fun hspace hd hmem => (mem_normalize hmem).elim hspace hd
  have hne : normalize cs ≠ [] := by
    obtain ⟨word, hword⟩ := List.exists_mem_of_ne_nil _ (mt rowWords_eq_nil_iff.mp hcs)
    exact intercalate_ne_nil hword (mem_words hword).1
  have hgroup : Group.read (normalize cs) =
      ((rowWords cs).mapM Group.readComparator).map Group.mk := by
    rw [Group.read_of_no_dash (hmem (by decide) hdash) hne, splitAt_normalize hcs]
  rw [read_eq_ok, groupTexts, splitBars_of_not_mem (hmem (by decide) hbar), List.map_singleton,
    normalize_eq, trim_collapse, ← normalize_eq, mapM_cons_eq_ok, hgroup]
  cases (rowWords cs).mapM Group.readComparator with
  | error fault => simp [Except.map]
  | ok comparators =>
    obtain ⟨groups⟩ := r
    simp [Except.map, pure, Except.pure, eq_comm]

/-- An expression of nothing but spaces and commas admits what the empty one admits. -/
theorem groupTexts_of_isGap (hcs : IsGap cs) : groupTexts cs = [[]] := by
  rw [groupTexts, normalize_eq_intercalate, rowWords_eq_nil_iff.mpr hcs]
  rfl

/-! ### Rows behind each other -/

theorem of_endsOperator (h : endsOperator (some c) = true) :
    Comparator.isBodyChar c = false ∧ isWordChar c = false ∧ isDecimal c = false ∧
      isBlank c = false := by
  simp only [endsOperator, Option.any_some, Bool.or_eq_true, beq_iff_eq] at h
  rcases h with (((rfl | rfl) | rfl) | rfl) | rfl <;> decide

theorem exists_word_of_operator (hc : endsOperator (some c) = true)
    (hds : ∀ d ∈ ds, isBlank d = true) (cs : List Char) :
    ∃ word ∈ words (bare (cs ++ c :: ds)), word.getLast? = some c := by
  obtain ⟨_, hword, hdecimal, hink⟩ := of_endsOperator hc
  have hgaps : dropGaps none (cs ++ [c]) = dropGaps none cs ++ [c] := by
    rw [dropGaps_append none cs [c] (by simpa using hdecimal) fun hstarts => ?_]
    · simp [dropGaps, endsOperator]
    · simp [hink, startsVersion, hdecimal] at hstarts
  rw [List.append_cons, words_bare_append_blank hds, bare, hgaps,
    dropMarks_append_cons hword hdecimal]
  exact exists_word_of_last hink (List.forall_mem_nil _) _

/-- No expression that is read as a row ends in an operator. -/
theorem endsOperator_lastInk {comparators : List Comparator}
    (h : (words (bare cs)).mapM Group.readComparator = .ok comparators) :
    endsOperator (lastInk none cs) = false := by
  refine Bool.eq_false_iff.mpr fun hoperator => ?_
  cases hlast : lastInk none cs with
  | none =>
    rw [hlast] at hoperator
    cases hoperator
  | some c =>
    rw [hlast] at hoperator
    obtain ⟨front, blanks, rfl, _, hblanks⟩ := exists_of_lastInk hlast
    obtain ⟨word, hword, hend⟩ := exists_word_of_operator hoperator hblanks front
    obtain ⟨_, hread⟩ := exists_mapM_eq_ok.mp ⟨_, h⟩ word hword
    obtain ⟨_, hwritten, _⟩ := Comparator.readComparator_eq_ok.mp hread
    have hbody := Comparator.isBodyChar_of_getLast? hwritten hend
    rw [(of_endsOperator hoperator).1] at hbody
    cases hbody

theorem rowWords_gap {comparators : List Comparator}
    (h : (rowWords cs).mapM Group.readComparator = .ok comparators) {gap : List Char}
    (hne : gap ≠ []) (hgap : IsGap gap) (ds : List Char) :
    rowWords (cs ++ (gap ++ ds)) = rowWords cs ++ rowWords ds := by
  obtain ⟨c, rest, hspaced⟩ : ∃ c rest, spaced gap = c :: rest :=
    List.exists_cons_of_ne_nil (by simpa [spaced] using hne)
  have hblank := hgap.blank_spaced
  rw [hspaced, List.forall_mem_cons] at hblank
  rw [rowWords, spaced_append, spaced_append, hspaced, List.cons_append,
    bare_append_cons (.inl hblank.1) _ _ fun _ => endsOperator_lastInk h,
    words_append_blank hblank.1, words_bare_blank_append hblank.2]
  rfl

/-- Two rows with a gap between them are one row. -/
theorem read_rows {first second : List Comparator} (hbar : '|' ∉ cs ∧ '|' ∉ ds)
    (hdash : '-' ∉ cs ∧ '-' ∉ ds) (hcs : ¬ IsGap cs)
    (hfirst : (rowWords cs).mapM Group.readComparator = .ok first)
    (hsecond : (rowWords ds).mapM Group.readComparator = .ok second) {gap : List Char}
    (hne : gap ≠ []) (hgap : IsGap gap) :
    read (cs ++ (gap ++ ds)) = .ok ⟨[⟨first ++ second⟩]⟩ := by
  have hmem : ∀ {d}, isBlank d = false ∧ d ≠ ',' → d ∉ cs ∧ d ∉ ds → d ∉ cs ++ (gap ++ ds) := by
    intro d hd hnot hmem
    have hd' : d ∉ gap := fun hin => (hgap d hin).elim (by simp [hd.1]) hd.2
    simp [hnot.1, hnot.2, hd'] at hmem
  have hwords : ¬ IsGap (cs ++ (gap ++ ds)) :=
    fun h => hcs fun c hc => h c (List.mem_append_left _ hc)
  refine (read_row (hmem (by decide) hbar) (hmem (by decide) hdash) hwords).mpr ⟨_, ?_, rfl⟩
  rw [rowWords_gap hfirst hne hgap]
  exact mapM_append_eq_ok hfirst hsecond

end Range

namespace Constraint

theorem read_eq_ok {text : String} {c : Constraint} :
    read text = .ok c ↔ (∃ d ∈ text.toList, isBlank d = false) ∧ c.text = text ∧
      Range.read text.toList = .ok c.range := by
  have hblank : text.toList.all isBlank = true ↔ ¬ ∃ d ∈ text.toList, isBlank d = false := by
    simp
  rw [read]
  split
  · rename_i hall
    exact iff_of_false (by simp) fun h => hblank.mp hall h.1
  · rename_i hsome
    have hink := Classical.not_not.mp (mt hblank.mpr hsome)
    rw [bind_eq_ok]
    constructor
    · rintro ⟨range, hrange, h⟩
      cases h
      exact ⟨hink, rfl, hrange⟩
    · rintro ⟨_, rfl, hrange⟩
      exact ⟨c.range, hrange, rfl⟩

theorem admitsText_iff {c : Constraint} {text : String} :
    c.admitsText text = true ↔
      ∃ v, SemVer.read? text = some v ∧ ∃ g ∈ c.range.groups, g.admits v = true := by
  rw [admitsText, Option.any_eq_true]
  exact exists_congr fun v => and_congr_right fun _ => List.any_eq_true

end Constraint

end ModulePins
