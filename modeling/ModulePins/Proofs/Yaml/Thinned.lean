import ModulePins.Proofs.Yaml.Plain
import ModulePins.Yaml.Tag

/-!
# Fewer spaces in a plain scalar

A text that reads as text still does when fewer spaces stand between its words: nothing else that a
plain scalar may stand for has spaces in it, save a timestamp, and there their number does not
count.
-/

namespace ModulePins.Yaml

/-- The second list comes from the first when some spaces next to others are left out. -/
inductive Thinned : List Char → List Char → Prop
  | nil : Thinned [] []
  | cons (c : Char) {cs ds : List Char} : Thinned cs ds → Thinned (c :: cs) (c :: ds)
  | space {cs ds : List Char} : Thinned cs (' ' :: ds) → Thinned (' ' :: cs) (' ' :: ds)

namespace Thinned

variable {cs ds : List Char} {c : Char} {p : Char → Bool}

theorem refl (cs : List Char) : Thinned cs cs := by
  induction cs with
  | nil => exact .nil
  | cons c cs ih => exact ih.cons c

theorem append {es fs : List Char} (h : Thinned cs ds) (h' : Thinned es fs) :
    Thinned (cs ++ es) (ds ++ fs) := by
  induction h with
  | nil => exact h'
  | cons c _ ih => exact ih.cons c
  | space _ ih => exact ih.space

theorem spaces (n : Nat) (h : Thinned cs ds) :
    Thinned (List.replicate (n + 1) ' ' ++ cs) (' ' :: ds) := by
  induction n with
  | zero => exact h.cons ' '
  | succ n ih => exact ih.space

theorem eq_of_not_mem (h : Thinned cs ds) (hspace : ' ' ∉ ds) : cs = ds := by
  induction h with
  | nil => rfl
  | cons c _ ih => rw [ih fun hd => hspace (List.mem_cons_of_mem _ hd)]
  | space => exact absurd List.mem_cons_self hspace

theorem mem (h : Thinned cs ds) (hc : c ∈ ds) : c ∈ cs := by
  induction h with
  | nil => exact hc
  | cons d _ ih =>
    obtain rfl | hc := List.mem_cons.mp hc
    · exact List.mem_cons_self
    · exact List.mem_cons_of_mem _ (ih hc)
  | space _ ih => exact List.mem_cons_of_mem _ (ih hc)

theorem head?_eq (h : Thinned cs ds) : cs.head? = ds.head? := by
  cases h <;> rfl

theorem isEmpty_eq (h : Thinned cs ds) : cs.isEmpty = ds.isEmpty := by
  cases h <;> rfl

theorem tail (h : Thinned cs ds) (hhead : ds.head? = some c) (hc : c ≠ ' ') :
    ∃ es fs, cs = c :: es ∧ ds = c :: fs ∧ Thinned es fs := by
  cases h with
  | nil => cases hhead
  | cons d h =>
    obtain rfl := Option.some.inj hhead
    exact ⟨_, _, rfl, rfl, h⟩
  | space => exact absurd (Option.some.inj hhead).symm hc

theorem takeWhile_take (n : Nat) (h : Thinned cs ds) (hp : p ' ' = false) :
    (cs.take n).takeWhile p = (ds.take n).takeWhile p ∧
      Thinned (cs.drop ((cs.take n).takeWhile p).length) (ds.drop ((ds.take n).takeWhile p).length) := by
  induction n generalizing cs ds with
  | zero => simpa using h
  | succ n ih =>
    cases h with
    | nil => exact ⟨rfl, .nil⟩
    | cons c h =>
      obtain ⟨htake, hdrop⟩ := ih h
      cases hc : p c with
      | true => simpa [hc, htake] using hdrop
      | false => simpa [hc] using h.cons c
    | space h => simpa [hp] using h.space

theorem takeWhile (h : Thinned cs ds) (hp : p ' ' = false) :
    cs.takeWhile p = ds.takeWhile p ∧
      Thinned (cs.drop (cs.takeWhile p).length) (ds.drop (ds.takeWhile p).length) := by
  have htake := h.takeWhile_take (max cs.length ds.length) hp
  rwa [List.take_of_length_le (Nat.le_max_left ..), List.take_of_length_le (Nat.le_max_right ..)] at htake

theorem dropWhile (h : Thinned cs ds) (hp : p ' ' = true) :
    Thinned (cs.dropWhile p) (ds.dropWhile p) := by
  induction h with
  | nil => exact .nil
  | cons c h ih =>
    cases hc : p c with
    | true => simpa [hc] using ih
    | false => simpa [hc] using h.cons c
  | space h ih => simpa [hp] using ih

theorem all_eq (h : Thinned cs ds) (p : Char → Bool) : cs.all p = ds.all p := by
  induction h with
  | nil => rfl
  | cons c _ ih => rw [List.all_cons, List.all_cons, ih]
  | space _ ih => rw [List.all_cons, ih, List.all_cons, ← Bool.and_assoc, Bool.and_self]

end Thinned

namespace Timestamp

variable {cs ds : List Char}

theorem digits?_of_thinned {least most : Nat} {digits rest : List Char} (h : Thinned cs ds)
    (hdigits : digits? least most ds = some (digits, rest)) :
    ∃ more, digits? least most cs = some (digits, more) ∧ Thinned more rest := by
  obtain ⟨htake, hdrop⟩ := h.takeWhile_take most (p := Char.isDigit) rfl
  unfold digits? at hdigits ⊢
  dsimp only at hdigits ⊢
  rw [htake] at hdrop ⊢
  split at hdigits
  · cases hdigits
  next hlength =>
    obtain ⟨rfl, rfl⟩ := Prod.mk.inj (Option.some.inj hdigits)
    exact ⟨_, if_neg hlength, hdrop⟩

theorem mark?_of_thinned {c : Char} {rest : List Char} (h : Thinned cs ds) (hc : c ≠ ' ')
    (hmark : mark? c ds = some rest) : ∃ more, mark? c cs = some more ∧ Thinned more rest := by
  unfold mark? at hmark ⊢
  split at hmark
  next hhead =>
    obtain ⟨es, fs, rfl, rfl, htail⟩ := h.tail (eq_of_beq hhead) hc
    obtain rfl := Option.some.inj hmark
    exact ⟨es, if_pos hhead, htail⟩
  next => cases hmark

theorem mark?_eq_none_of_thinned {c : Char} (h : Thinned cs ds) (hmark : mark? c ds = none) :
    mark? c cs = none := by
  unfold mark? at hmark ⊢
  rw [h.head?_eq]
  split at hmark
  · cases hmark
  next hhead => exact if_neg hhead

theorem takeWhile_append_drop (p : Char → Bool) (cs : List Char) :
    cs.takeWhile p ++ cs.drop (cs.takeWhile p).length = cs :=
  (List.prefix_iff_eq_append.mp (List.takeWhile_prefix p))

theorem space_not_mem_of_all {p : Char → Bool} (h : cs.all p = true) (hp : p ' ' = false) :
    ' ' ∉ cs :=
  fun hspace => by simp [List.all_eq_true.mp h _ hspace] at hp

theorem space_not_mem_takeWhile {p : Char → Bool} (cs : List Char) (hp : p ' ' = false) :
    ' ' ∉ cs.takeWhile p :=
  space_not_mem_of_all List.all_takeWhile hp

theorem space_not_mem_of_offsetDigits? {text : String} {negative : Bool} {offset : Offset}
    (h : offsetDigits? text negative cs = some offset) : ' ' ∉ cs := by
  have hdigits : ' ' ∉ cs.takeWhile Char.isDigit := space_not_mem_takeWhile cs rfl
  have hcs := takeWhile_append_drop Char.isDigit cs
  suffices hrest : ' ' ∉ cs.drop (cs.takeWhile Char.isDigit).length by
    rw [← hcs, List.mem_append, not_or]
    exact ⟨hdigits, hrest⟩
  unfold offsetDigits? at h
  dsimp only at h
  split at h
  next hnil => simp [hnil]
  next hnil => simp [hnil]
  next hnil => simp [hnil]
  next hnil => simp [hnil]
  next rest hcolon =>
    split at h
    next hall =>
      rw [Bool.and_eq_true] at hall
      simp [hcolon, space_not_mem_of_all hall.2 rfl]
    next => cases h
  next => cases h

theorem offset?_of_thinned {offset : Option Offset} (h : Thinned cs ds)
    (hoffset : offset? ds = some offset) : offset? cs = some offset := by
  have hdrop := h.dropWhile (p := fun c => c == ' ' || c == '\t') rfl
  have hsign : ∀ {sign : Char} {rest : List Char} {text : String} {negative : Bool} {o : Offset},
      ds.dropWhile (fun c => c == ' ' || c == '\t') = sign :: rest → sign ≠ ' ' →
        offsetDigits? text negative rest = some o → cs.dropWhile (fun c => c == ' ' || c == '\t') =
          ds.dropWhile fun c => c == ' ' || c == '\t' := by
    intro sign rest text negative o hds hne ho
    refine hdrop.eq_of_not_mem ?_
    rw [hds, List.mem_cons, not_or]
    exact ⟨Ne.symm hne, space_not_mem_of_offsetDigits? ho⟩
  suffices heq : cs.dropWhile (fun c => c == ' ' || c == '\t') =
      ds.dropWhile fun c => c == ' ' || c == '\t' by
    unfold offset? at hoffset ⊢
    rwa [heq]
  unfold offset? at hoffset
  dsimp only at hoffset
  split at hoffset
  next hds => exact hdrop.eq_of_not_mem (by simp [hds])
  next hds => exact hdrop.eq_of_not_mem (by simp [hds])
  next rest hds =>
    obtain ⟨o, ho, -⟩ := Option.map_eq_some_iff.mp hoffset
    exact hsign hds (by decide) ho
  next rest hds =>
    obtain ⟨o, ho, -⟩ := Option.map_eq_some_iff.mp hoffset
    exact hsign hds (by decide) ho
  next => cases hoffset

theorem clock?_of_thinned {clock : Clock} (h : Thinned cs ds) (hclock : clock? ds = some clock) :
    clock? cs = some clock := by
  unfold clock? at hclock ⊢
  obtain ⟨⟨hour, rest⟩, hhour, hclock⟩ := Option.bind_eq_some_iff.mp hclock
  obtain ⟨more, hhour', h⟩ := digits?_of_thinned h hhour
  obtain ⟨rest, hmark, hclock⟩ := Option.bind_eq_some_iff.mp hclock
  obtain ⟨more, hmark', h⟩ := mark?_of_thinned h (by decide) hmark
  obtain ⟨⟨minute, rest⟩, hminute, hclock⟩ := Option.bind_eq_some_iff.mp hclock
  obtain ⟨more, hminute', h⟩ := digits?_of_thinned h hminute
  obtain ⟨rest, hmark₂, hclock⟩ := Option.bind_eq_some_iff.mp hclock
  obtain ⟨more, hmark₂', h⟩ := mark?_of_thinned h (by decide) hmark₂
  obtain ⟨⟨second, rest⟩, hsecond, hclock⟩ := Option.bind_eq_some_iff.mp hclock
  obtain ⟨more, hsecond', h⟩ := digits?_of_thinned h hsecond
  dsimp only at h hclock
  simp only [hhour', hmark', hminute', hmark₂', hsecond', bind, Option.bind_some]
  -- the fraction is the same, and what is left is thinned
  have hzone : ∀ {es fs : List Char}, Thinned es fs → ∀ make : Option Offset → Clock,
      (if !fs.isEmpty && fs.all (fun c => c == ' ' || c == '\t') then none
        else (offset? fs).bind fun o => some (make o)) = some clock →
      (if !es.isEmpty && es.all (fun c => c == ' ' || c == '\t') then none
        else (offset? es).bind fun o => some (make o)) = some clock := by
    intro es fs h make hmake
    rw [h.isEmpty_eq, h.all_eq]
    split at hmake
    · cases hmake
    next hblank =>
      obtain ⟨o, ho, hmake⟩ := Option.bind_eq_some_iff.mp hmake
      rw [if_neg hblank, offset?_of_thinned h ho]
      exact hmake
  cases hpoint : mark? '.' rest with
  | none =>
    rw [hpoint] at hclock
    rw [mark?_eq_none_of_thinned h hpoint]
    exact hzone h _ hclock
  | some afterPoint =>
    rw [hpoint] at hclock
    obtain ⟨more, hpoint', h⟩ := mark?_of_thinned h (by decide) hpoint
    obtain ⟨htake, hdrop⟩ := h.takeWhile (p := Char.isDigit) rfl
    rw [hpoint']
    have hmake := hzone hdrop _ hclock
    rw [Option.getD_some, ← htake] at hmake
    exact hmake

theorem gap?_cons {c : Char} (hc : c ≠ 'T' ∧ c ≠ 't') :
    gap? (c :: cs) =
      if c == ' ' || c == '\t' then some (cs.dropWhile fun c => c == ' ' || c == '\t') else none := by
  have hlt : (cs.dropWhile fun c => c == ' ' || c == '\t').length < (c :: cs).length :=
    Nat.lt_succ_of_le (List.dropWhile_suffix _).length_le
  cases hblank : c == ' ' || c == '\t' with
  | true => simp [gap?, hc, hblank, hlt, -List.length_cons]
  | false => simp [gap?, hc, hblank]

theorem gap?_of_thinned {rest : List Char} (h : Thinned cs ds) (hgap : gap? ds = some rest) :
    ∃ more, gap? cs = some more ∧ Thinned more rest := by
  cases h with
  | nil => cases hgap
  | @cons c es fs h =>
    by_cases hc : c = 'T' ∨ c = 't'
    · obtain rfl | rfl := hc
      · obtain rfl := Option.some.inj hgap
        exact ⟨_, rfl, h⟩
      · obtain rfl := Option.some.inj hgap
        exact ⟨_, rfl, h⟩
    · rw [gap?_cons (not_or.mp hc)] at hgap ⊢
      split at hgap
      next hblank =>
        obtain rfl := Option.some.inj hgap
        exact ⟨_, if_pos hblank, h.dropWhile rfl⟩
      next => cases hgap
  | @space es fs h =>
    rw [gap?_cons (by decide)] at hgap ⊢
    obtain rfl := Option.some.inj hgap
    exact ⟨_, rfl, h.dropWhile rfl⟩

theorem read?_of_thinned {t : Timestamp} (h : Thinned cs ds) (hread : read? ds = some t) :
    read? cs = some t := by
  unfold read? at hread ⊢
  obtain ⟨⟨year, rest⟩, hyear, hread⟩ := Option.bind_eq_some_iff.mp hread
  obtain ⟨more, hyear', h⟩ := digits?_of_thinned h hyear
  obtain ⟨rest, hmark, hread⟩ := Option.bind_eq_some_iff.mp hread
  obtain ⟨more, hmark', h⟩ := mark?_of_thinned h (by decide) hmark
  obtain ⟨⟨month, rest⟩, hmonth, hread⟩ := Option.bind_eq_some_iff.mp hread
  obtain ⟨more, hmonth', h⟩ := digits?_of_thinned h hmonth
  obtain ⟨rest, hmark₂, hread⟩ := Option.bind_eq_some_iff.mp hread
  obtain ⟨more, hmark₂', h⟩ := mark?_of_thinned h (by decide) hmark₂
  obtain ⟨⟨day, rest⟩, hday, hread⟩ := Option.bind_eq_some_iff.mp hread
  obtain ⟨more, hday', h⟩ := digits?_of_thinned h hday
  dsimp only at h hread
  simp only [hyear', hmark', hmonth', hmark₂', hday', bind, Option.bind_some]
  rw [h.isEmpty_eq]
  split at hread
  next hempty =>
    rw [if_pos hempty]
    exact hread
  next hempty =>
    rw [if_neg hempty]
    obtain ⟨afterGap, hgap, hread⟩ := Option.bind_eq_some_iff.mp hread
    obtain ⟨clock, hclock, hread⟩ := Option.bind_eq_some_iff.mp hread
    obtain ⟨more, hgap', h⟩ := gap?_of_thinned h hgap
    exact Option.bind_eq_some_iff.mpr ⟨more, hgap',
      Option.bind_eq_some_iff.mpr ⟨clock, clock?_of_thinned h hclock, hread⟩⟩

end Timestamp

namespace Tag

variable {cs ds : List Char}

theorem space_not_mem_of_dropWhile {p : Char → Bool} (hp : p ' ' = false)
    (h : ' ' ∉ cs.dropWhile p) :
    ' ' ∉ cs := by
  rw [← List.takeWhile_append_dropWhile (p := p) (l := cs), List.mem_append, not_or]
  exact ⟨Timestamp.space_not_mem_takeWhile cs hp, h⟩

theorem space_not_mem_of_dropSign (h : ' ' ∉ dropSign cs) : ' ' ∉ cs := by
  unfold dropSign at h
  split at h <;> simp_all

theorem space_not_mem_of_isRun {p : Char → Bool} (h : isRun p cs = true) (hp : p ' ' = false) :
    ' ' ∉ cs := by
  rw [isRun, Bool.and_eq_true] at h
  exact Timestamp.space_not_mem_of_all h.2 hp

theorem space_not_mem_of_isExponent {needsSign : Bool} (h : isExponent needsSign cs = true) :
    ' ' ∉ cs := by
  cases cs with
  | nil => nofun
  | cons mark rest =>
    simp only [isExponent, Bool.and_eq_true, Bool.or_eq_true, beq_iff_eq] at h
    have hrest := space_not_mem_of_dropSign (space_not_mem_of_isRun h.1.2 rfl)
    rw [List.mem_cons, not_or]
    refine ⟨?_, hrest⟩
    obtain rfl | rfl := h.1.1 <;> decide

theorem space_not_mem_of_looksWhole (h : looksWhole false cs = true) : ' ' ∉ cs := by
  apply space_not_mem_of_dropSign
  simp only [looksWhole, Bool.and_eq_true, Bool.or_eq_true] at h
  obtain hradix | hrow := h.2
  · split at hradix
    next rest hbody => simpa [hbody] using space_not_mem_of_isRun hradix rfl
    next rest hbody => simpa [hbody] using space_not_mem_of_isRun hradix rfl
    next rest hbody =>
      simpa [hbody] using space_not_mem_of_isRun (by simpa using hradix) (rfl : isOctal ' ' = false)
    next => cases hradix
  · exact space_not_mem_of_isRun (by simpa using hrow) (rfl : isDigitOrLow ' ' = false)

theorem space_not_mem_of_looksFractional (h : looksFractional false cs = true) : ' ' ∉ cs := by
  have hlow : isDigitOrLow ' ' = false := rfl
  have hwords : ∀ words : List String, (∀ word ∈ words, ' ' ∉ word.toList) → ∀ es,
      words.contains (String.ofList es) = true → ' ' ∉ es := by
    intro words hall es hes
    have hmem := hall _ (List.contains_iff_mem.mp hes)
    rwa [String.toList_ofList] at hmem
  unfold looksFractional at h
  dsimp only at h
  split at h
  next hinf => exact space_not_mem_of_dropSign (hwords _ (by decide) _ hinf)
  split at h
  next hnan => exact hwords _ (by decide) _ hnan
  apply space_not_mem_of_dropSign
  rw [← Timestamp.takeWhile_append_drop isDigitOrLow (dropSign cs), List.mem_append, not_or]
  refine ⟨Timestamp.space_not_mem_takeWhile _ hlow, ?_⟩
  split at h
  · split at h
    next rest hrest =>
      rw [hrest, List.mem_cons, not_or]
      refine ⟨by decide, space_not_mem_of_dropWhile hlow ?_⟩
      rw [Bool.or_eq_true] at h
      obtain h | h := h
      · simp [List.isEmpty_iff.mp h]
      · exact space_not_mem_of_isExponent h
    next => exact space_not_mem_of_isExponent (by simpa using h)
  split at h
  · split at h
    next rest hrest =>
      rw [hrest, List.mem_cons, not_or]
      refine ⟨by decide, ?_⟩
      rw [← Timestamp.takeWhile_append_drop isDigitOrLow rest, List.mem_append, not_or]
      refine ⟨Timestamp.space_not_mem_takeWhile _ hlow, ?_⟩
      simp only [Bool.and_eq_true, Bool.or_eq_true] at h
      obtain h | h := h.2
      · simp [List.isEmpty_iff.mp h]
      · exact space_not_mem_of_isExponent h
    next => cases h
  · cases h

theorem not_isImplicit_of_ofPlain {text : String} (h : Tag.ofPlain {} text = .ok .text) :
    (Timestamp.read? text.toList).any Timestamp.isImplicit = false := by
  by_contra hstamp
  rw [Bool.not_eq_false] at hstamp
  have holder : Version.isOlder {} = false := rfl
  simp only [ofPlain, holder, hstamp] at h
  split_ifs at h <;> simp_all

theorem ofPlain_of_thinned {text : String} (h : Thinned text.toList ds)
    (htext : Tag.ofPlain {} text = .ok .text) : Tag.ofPlain {} (String.ofList ds) = .ok .text := by
  by_cases hspace : ' ' ∈ ds
  · have hword : ∀ word : String, ' ' ∉ word.toList → String.ofList ds ≠ word := by
      rintro word hword rfl
      rw [String.toList_ofList] at hword
      exact hword hspace
    have hwords : ∀ words : List String, (∀ word ∈ words, ' ' ∉ word.toList) →
        String.ofList ds ∉ words := fun words hall hmem => hword _ (hall _ hmem) rfl
    have hbool := hwords boolWords (by decide)
    have hnull := hwords nullWords (by decide)
    have hmerge := hword "<<" (by decide)
    have hdefault := hword "=" (by decide)
    have hfractional : looksFractional false ds = false := by
      by_contra hlooks
      exact space_not_mem_of_looksFractional (by simpa using hlooks) hspace
    have hwhole : looksWhole false ds = false := by
      by_contra hlooks
      exact space_not_mem_of_looksWhole (by simpa using hlooks) hspace
    have hstamp : (Timestamp.read? ds).any Timestamp.isImplicit = false := by
      have hnot := not_isImplicit_of_ofPlain htext
      cases hread : Timestamp.read? ds with
      | none => rfl
      | some t => rwa [Timestamp.read?_of_thinned h hread] at hnot
    have holder : Version.isOlder {} = false := rfl
    simp [ofPlain, holder, hbool, hnull, hmerge, hdefault, hfractional, hwhole, hstamp]
  · rwa [← h.eq_of_not_mem hspace, String.ofList_toList]

end Tag

namespace Printer

theorem thinned_squeezed (cs : List Char) : Thinned cs (squeezed (runs cs)) := by
  induction cs using runs_induction with
  | nil => exact .nil
  | append kind run rest hrun ih =>
    rw [hrun.runs_append]
    cases hruns : runs rest with
    | nil =>
      rw [hruns] at ih
      simpa [squeezed] using (Thinned.refl run).append ih
    | cons word more =>
      rw [hruns] at ih
      unfold squeezed
      split
      next hlong =>
        rw [Bool.and_eq_true, beq_iff_eq] at hlong
        obtain ⟨c, cs, rfl⟩ := List.exists_cons_of_ne_nil hrun.ne_nil
        obtain rfl := Option.some.inj hlong.1
        have hspaces := (hrun.kindOf_eq ' ' List.mem_cons_self).symm ▸ hrun
        rw [IsRun.eq_replicate hspaces]
        exact ih.spaces _
      next => exact (Thinned.refl run).append ih

/-- What is written plain reads back as text. -/
theorem ofPlain_readBack {indent column : Nat} {text : String} (h : styleOf text = .plain) :
    Tag.ofPlain {} (readBack indent column text) = .ok .text := by
  have hreads := (of_styleOf_eq_plain h).1
  have htext : Tag.ofPlain {} text = .ok .text := by
    unfold readsAsText at hreads
    split at hreads
    next tag htag => rw [htag, eq_of_beq hreads]
    next => cases hreads
  unfold readBack
  rw [h]
  exact Tag.ofPlain_of_thinned (thinned_squeezed _) htext

end Printer

end ModulePins.Yaml
