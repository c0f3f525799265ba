import ModulePins.Proofs.SemVer.Prerelease

/-!
# Constraints put together

Bars between two constraints admit what one of them admits. A comma or blanks between two rows of
comparators admit what both admit, but a row of no comparators has no say about pre-releases: alone
it refuses them, beside another row it is not there.
-/

namespace ModulePins

open SemVer Text Sequence Range

namespace Group

theorem admitsReleased_append (first second : List Comparator) (v : SemVer) :
    admitsReleased ⟨first ++ second⟩ v =
      (admitsReleased ⟨first⟩ v && admitsReleased ⟨second⟩ v) := by
  simp only [admitsReleased, clauses, List.flatMap_append, List.all_append]

theorem namesPrerelease_append {first second : List Comparator} :
    NamesPrerelease ⟨first ++ second⟩ ↔ NamesPrerelease ⟨first⟩ ∨ NamesPrerelease ⟨second⟩ := by
  simp only [NamesPrerelease, List.mem_append, or_and_right, exists_or]

theorem admits_append {first second : List Comparator} (hfirst : ¬ NamesPrerelease ⟨first⟩)
    (hsecond : ¬ NamesPrerelease ⟨second⟩) (v : SemVer) :
    admits ⟨first ++ second⟩ v = (admits ⟨first⟩ v && admits ⟨second⟩ v) := by
  have hboth : ¬ NamesPrerelease ⟨first ++ second⟩ :=
    fun h => (namesPrerelease_append.mp h).elim hfirst hsecond
  rw [admits_of_not_namesPrerelease hboth, admits_of_not_namesPrerelease hfirst,
    admits_of_not_namesPrerelease hsecond, admitsReleased_append]

/-- The empty group refuses only pre-releases. -/
theorem everything_admits {v : SemVer} (h : v.isPrerelease = false) :
    everything.admits v = true := by
  have hpre : v.prerelease = [] := by simpa [SemVer.isPrerelease] using h
  have hge : v.precedence (.release 0 0 0) ≠ .lt := by
    have hzero : ∀ n : Nat, compare n 0 = .eq ∨ compare n 0 = .gt := fun n => by
      rw [Nat.compare_eq_eq, Nat.compare_eq_gt]
      omega
    unfold SemVer.precedence
    rcases hzero v.major with hmajor | hmajor <;> rcases hzero v.minor with hminor | hminor <;>
      rcases hzero v.patch with hpatch | hpatch <;>
      simp [SemVer.release, hmajor, hminor, hpatch, hpre, SemVer.prereleaseOrder]
  rw [admits, Bool.or_eq_true]
  refine .inr (admitsReleased_iff.mpr fun c hc bound hbound => ?_)
  cases List.mem_singleton.mp hc
  cases List.mem_singleton.mp hbound
  simpa [Clause.released, Comparator.lineStart, SemVer.isPrerelease, SemVer.release, Clause.admits,
    Clause.holds, hpre] using hge

end Group

namespace Constraint

variable {a b : String} {A B : Constraint}

theorem read_bars (ha : read a = .ok A) (hb : read b = .ok B) {s s' : String}
    (hs : IsGap s.toList) (hs' : IsGap s'.toList) :
    ∃ C, read (a ++ s ++ "||" ++ s' ++ b) = .ok C ∧
      C.range.groups = A.range.groups ++ B.range.groups := by
  obtain ⟨⟨d, hd, hink⟩, _, hA⟩ := read_eq_ok.mp ha
  obtain ⟨_, _, hB⟩ := read_eq_ok.mp hb
  have hchars : (a ++ s ++ "||" ++ s' ++ b).toList =
      (a.toList ++ s.toList) ++ '|' :: '|' :: (s'.toList ++ b.toList) := by
    simp [String.toList_append]
  have hfront : Range.read (a.toList ++ s.toList) = .ok A.range := by
    rw [Range.read, normalize_append_gap hs]
    exact hA
  have hback : Range.read (s'.toList ++ b.toList) = .ok B.range := by
    rw [Range.read, normalize_gap_append hs']
    exact hB
  refine ⟨⟨_, ⟨A.range.groups ++ B.range.groups⟩⟩, read_eq_ok.mpr ⟨⟨d, ?_, hink⟩, rfl, ?_⟩, rfl⟩
  · rw [hchars]
    simp [hd]
  · rw [hchars, Range.read_eq_ok, groupTexts_bars hfront]
    exact mapM_append_eq_ok (Range.read_eq_ok.mp hfront) (Range.read_eq_ok.mp hback)

/-- Between two rows without bars and dashes a gap puts their comparators behind each other. A row
of no comparators is not there. -/
theorem read_gap (ha : read a = .ok A) (hb : read b = .ok B)
    (hdash : '-' ∉ a.toList ∧ '-' ∉ b.toList)
    (hbars : ¬ ['|', '|'] <:+: a.toList ∧ ¬ ['|', '|'] <:+: b.toList) {gap : String}
    (hne : gap.toList ≠ []) (hgap : IsGap gap.toList) :
    ∃ C, read (a ++ gap ++ b) = .ok C ∧ (IsGap a.toList → C.range = B.range) ∧
      (IsGap b.toList → C.range = A.range) ∧
      (¬ IsGap a.toList → ¬ IsGap b.toList → ∃ first second, A.range = ⟨[⟨first⟩]⟩ ∧
        B.range = ⟨[⟨second⟩]⟩ ∧ C.range = ⟨[⟨first ++ second⟩]⟩) := by
  obtain ⟨⟨d, hd, hink⟩, _, hA⟩ := read_eq_ok.mp ha
  obtain ⟨_, _, hB⟩ := read_eq_ok.mp hb
  have hchars : (a ++ gap ++ b).toList = a.toList ++ (gap.toList ++ b.toList) := by
    simp [String.toList_append]
  have hfirst : IsGap a.toList → normalize (a.toList ++ (gap.toList ++ b.toList)) =
      normalize b.toList := fun h => by
    rw [normalize_gap_append h, normalize_gap_append hgap]
  have hsecond : IsGap b.toList → normalize (a.toList ++ (gap.toList ++ b.toList)) =
      normalize a.toList := fun h => by
    rw [← List.append_assoc, normalize_append_gap h, normalize_append_gap hgap]
  have hread : ∀ {r}, Range.read (a.toList ++ (gap.toList ++ b.toList)) = .ok r →
      read (a ++ gap ++ b) = .ok ⟨a ++ gap ++ b, r⟩ := by
    intro r h
    rw [← hchars] at h
    exact read_eq_ok.mpr ⟨⟨d, hchars ▸ List.mem_append_left _ hd, hink⟩, rfl, h⟩
  -- A side without words vanishes behind the gap, and the rows of two sides with words are joined.
  by_cases hwordsA : IsGap a.toList
  · have hJ : Range.read (a.toList ++ (gap.toList ++ b.toList)) = .ok B.range := by
      rw [Range.read, hfirst hwordsA]
      exact hB
    refine ⟨_, hread hJ, fun _ => rfl, fun hwordsB => ?_, fun h => absurd hwordsA h⟩
    rw [Range.read, hsecond hwordsB] at hJ
    exact (Except.ok.inj (hA.symm.trans hJ)).symm
  · by_cases hwordsB : IsGap b.toList
    · have hJ : Range.read (a.toList ++ (gap.toList ++ b.toList)) = .ok A.range := by
        rw [Range.read, hsecond hwordsB]
        exact hA
      exact ⟨_, hread hJ, fun h => absurd h hwordsA, fun _ => rfl, fun _ h => absurd hwordsB h⟩
    · have hbarA := Range.bar_not_mem_of_read hA hbars.1
      have hbarB := Range.bar_not_mem_of_read hB hbars.2
      obtain ⟨first, hrowA, hrangeA⟩ := (read_row hbarA hdash.1 hwordsA).mp hA
      obtain ⟨second, hrowB, hrangeB⟩ := (read_row hbarB hdash.2 hwordsB).mp hB
      have hJ := read_rows ⟨hbarA, hbarB⟩ hdash hwordsA hrowA hrowB hne hgap
      exact ⟨_, hread hJ, fun h => absurd h hwordsA, fun h => absurd h hwordsB,
        fun _ _ => ⟨first, second, hrangeA, hrangeB, rfl⟩⟩

theorem admitsText_of_range {c d : Constraint} (h : c.range = d.range) (u : String) :
    c.admitsText u = d.admitsText u := by
  have hadmits : c.admits = d.admits := funext fun v => by rw [admits, admits, h]
  rw [admitsText, admitsText, hadmits]

theorem admits_of_isGap (ha : read a = .ok A) (hgap : IsGap a.toList) {v : SemVer}
    (hv : v.isPrerelease = false) : A.range.admits v = true := by
  have hgroups := Range.read_eq_ok.mp (read_eq_ok.mp ha).2.2
  rw [groupTexts_of_isGap hgap] at hgroups
  have hread : A.range.groups = [Group.everything] := (Except.ok.inj hgroups).symm
  rw [Range.admits, hread, List.any_cons, Group.everything_admits hv, Bool.true_or]

theorem not_namesPrerelease_of_row (ha : read a = .ok A) (hdash : '-' ∉ a.toList)
    {comparators : List Comparator} (hrow : A.range = ⟨[⟨comparators⟩]⟩) :
    ¬ Group.NamesPrerelease ⟨comparators⟩ :=
  not_namesPrerelease_of_read ha hdash _ (by rw [hrow]; exact List.mem_cons_self)

/-- Side by side two constraints admit what both admit, unless just one of them is a row of no
comparators and could refuse a pre-release. -/
theorem admits_of_gap {C : Constraint} (ha : read a = .ok A) (hb : read b = .ok B)
    (hdash : '-' ∉ a.toList ∧ '-' ∉ b.toList) (hfirst : IsGap a.toList → C.range = B.range)
    (hsecond : IsGap b.toList → C.range = A.range)
    (hrows : ¬ IsGap a.toList → ¬ IsGap b.toList → ∃ first second, A.range = ⟨[⟨first⟩]⟩ ∧
      B.range = ⟨[⟨second⟩]⟩ ∧ C.range = ⟨[⟨first ++ second⟩]⟩)
    {v : SemVer} (hv : v.isPrerelease = true → (IsGap a.toList ↔ IsGap b.toList)) :
    C.range.admits v = (A.range.admits v && B.range.admits v) := by
  by_cases hwordsA : IsGap a.toList <;> by_cases hwordsB : IsGap b.toList
  · rw [← hfirst hwordsA, hsecond hwordsB, Bool.and_self]
  · have hrelease := Bool.eq_false_iff.mpr fun hpre => hwordsB ((hv hpre).mp hwordsA)
    rw [hfirst hwordsA, admits_of_isGap ha hwordsA hrelease, Bool.true_and]
  · have hrelease := Bool.eq_false_iff.mpr fun hpre => hwordsA ((hv hpre).mpr hwordsB)
    rw [hsecond hwordsB, admits_of_isGap hb hwordsB hrelease, Bool.and_true]
  · obtain ⟨first, second, hA, hB, hC⟩ := hrows hwordsA hwordsB
    have happend := Group.admits_append (not_namesPrerelease_of_row ha hdash.1 hA)
      (not_namesPrerelease_of_row hb hdash.2 hB) v
    simp only [Range.admits, hA, hB, hC, List.any_cons, List.any_nil, Bool.or_false, happend]

/-- Constraints put together by bars admit what one of them admits. Put together by a comma or by
blanks they admit what both admit, except that a text of nothing but blanks and commas is as if it
were not there: it no longer refuses pre-releases. -/
theorem joined_admits (ha : read a = .ok A) (hb : read b = .ok B) :
    (∀ s s' : String, IsGap s.toList → IsGap s'.toList →
      ∃ C, read (a ++ s ++ "||" ++ s' ++ b) = .ok C ∧
        ∀ u, C.admitsText u = (A.admitsText u || B.admitsText u)) ∧
    ('-' ∉ a.toList ∧ '-' ∉ b.toList →
      ¬ ['|', '|'] <:+: a.toList ∧ ¬ ['|', '|'] <:+: b.toList →
      ∀ gap : String, gap.toList ≠ [] → IsGap gap.toList →
      ∃ C, read (a ++ gap ++ b) = .ok C ∧
        (IsGap a.toList → ∀ u, C.admitsText u = B.admitsText u) ∧
        (IsGap b.toList → ∀ u, C.admitsText u = A.admitsText u) ∧
        ∀ u, ((∃ v, SemVer.read? u = some v ∧ v.isPrerelease = true) →
            (IsGap a.toList ↔ IsGap b.toList)) →
          C.admitsText u = (A.admitsText u && B.admitsText u)) := by
  constructor
  · intro s s' hs hs'
    obtain ⟨C, hC, hgroups⟩ := read_bars ha hb hs hs'
    refine ⟨C, hC, fun u => ?_⟩
    rw [admitsText, admitsText, admitsText]
    cases SemVer.read? u with
    | none => rfl
    | some v => simp only [Option.any_some, admits, Range.admits, hgroups, List.any_append]
  · intro hdash hbars gap hne hgap
    obtain ⟨C, hC, hfirst, hsecond, hrows⟩ := read_gap ha hb hdash hbars hne hgap
    refine ⟨C, hC, fun h => admitsText_of_range (hfirst h),
      fun h => admitsText_of_range (hsecond h), fun u hu => ?_⟩
    rw [admitsText, admitsText, admitsText]
    cases hread : SemVer.read? u with
    | none => rfl
    | some v =>
      exact admits_of_gap ha hb hdash hfirst hsecond hrows fun hpre => hu ⟨v, hread, hpre⟩

theorem joined_admits_interval :
    (∃ C, read (">= v1.2" ++ " " ++ "||" ++ "" ++ "~0.9") = .ok C ∧ C.admitsText "0.9.4" = true) ∧
      ∃ C, read (">= v1.2" ++ ", " ++ "<2") = .ok C ∧
        C.admitsText "1.9.0" = true ∧ C.admitsText "2.0.0" = false := by
  have hlow : read ">= v1.2" = .ok ⟨">= v1.2", ⟨[⟨[⟨.ge, .minorLine 1 2⟩]⟩]⟩⟩ := by decide +kernel
  have hhigh : read "<2" = .ok ⟨"<2", ⟨[⟨[⟨.lt, .majorLine 2⟩]⟩]⟩⟩ := by decide +kernel
  have hline : read "~0.9" = .ok ⟨"~0.9", ⟨[⟨[⟨.tilde, .minorLine 0 9⟩]⟩]⟩⟩ := by decide +kernel
  have hno : ∀ {cs : List Char}, '|' ∉ cs → ¬ ['|', '|'] <:+: cs :=
    fun hcs hbars => hcs (hbars.subset List.mem_cons_self)
  constructor
  · obtain ⟨C, hC, hadmits⟩ := (joined_admits hlow hline).1 " " "" (by decide) (by decide)
    exact ⟨C, hC, by rw [hadmits]; decide +kernel⟩
  · obtain ⟨C, hC, _, _, hadmits⟩ := (joined_admits hlow hhigh).2 (by decide)
      ⟨hno (by decide), hno (by decide)⟩ ", " (by decide) (by decide)
    have hrelease : ∀ {u v}, SemVer.read? u = some v → v.isPrerelease = false →
        ¬ ∃ v, SemVer.read? u = some v ∧ v.isPrerelease = true := by
      rintro u v hu hv ⟨w, hw, hpre⟩
      cases hu.symm.trans hw
      rw [hv] at hpre
      cases hpre
    have hin : SemVer.read? "1.9.0" = some (.release 1 9 0) := by decide +kernel
    have hout : SemVer.read? "2.0.0" = some (.release 2 0 0) := by decide +kernel
    refine ⟨C, hC, ?_, ?_⟩
    · rw [hadmits _ fun h => absurd h (hrelease hin rfl)]
      decide +kernel
    · rw [hadmits _ fun h => absurd h (hrelease hout rfl)]
      decide +kernel

/-- A comma alone refuses pre-releases, but not beside an upper bound that lets one in. -/
theorem comma_beside_bound : ∃ A B C, read "," = .ok A ∧ read "<2.0.0" = .ok B ∧
    read ("," ++ "," ++ "<2.0.0") = .ok C ∧
    C.admitsText "2.0.0-rc.1" ≠ (A.admitsText "2.0.0-rc.1" && B.admitsText "2.0.0-rc.1") := by
  refine ⟨⟨",", ⟨[Group.everything]⟩⟩, ⟨"<2.0.0", ⟨[⟨[⟨.lt, .full (.release 2 0 0)⟩]⟩]⟩⟩,
    ⟨",,<2.0.0", ⟨[⟨[⟨.lt, .full (.release 2 0 0)⟩]⟩]⟩⟩, ?_, ?_, ?_, ?_⟩ <;>
    decide +kernel

end Constraint

end ModulePins
