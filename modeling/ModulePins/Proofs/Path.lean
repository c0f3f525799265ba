import ModulePins.File.Path
import ModulePins.Proofs.SemVer.Canonical
import ModulePins.Proofs.Url
import ModulePins.Proofs.Url.Percent

/-!
# Paths are read back

The text of a path reads as the path, and so does its locator: all characters that divide locators
are encoded in it.
-/

namespace ModulePins.Path

open Text Url

variable {p base : Path} {names : List (List Char)} {cs : List Char} {c : Char}

/-- The names are such as reading leaves them: none is empty or a single dot, or holds a slash. -/
def IsSound (p : Path) : Prop :=
  ∀ name ∈ p.names, isName name = true ∧ '/' ∉ name

instance (p : Path) : Decidable p.IsSound :=
  inferInstanceAs (Decidable (∀ name ∈ p.names, isName name = true ∧ '/' ∉ name))

def IsRooted (p : Path) : Prop :=
  p.root ≠ .relative

instance (p : Path) : Decidable p.IsRooted :=
  inferInstanceAs (Decidable (p.root ≠ .relative))

theorem isSound_read (cs : List Char) : (read cs).IsSound := by
  intro name hname
  obtain ⟨hpiece, hkept⟩ := List.mem_filter.mp hname
  exact ⟨hkept, SemVer.not_mem_of_mem_splitAt hpiece⟩

theorem isSound_absolute (hbase : base.IsSound) (h : p.IsSound) : (base.absolute p).IsSound := by
  unfold absolute
  split
  · intro name hname
    exact (List.mem_append.mp hname).elim (hbase name) (h name)
  · exact h

theorem isRooted_absolute (hbase : base.IsRooted) : (base.absolute p).IsRooted := by
  unfold absolute
  split
  · exact hbase
  · rename_i hroot
    exact hroot

/-! ### The text of a path -/

theorem filter_splitAt_joined (h : ∀ name ∈ names, isName name = true ∧ '/' ∉ name) :
    (SemVer.splitAt '/' (joined names)).filter isName = names := by
  by_cases hempty : names = []
  · subst hempty
    rfl
  · rw [joined, SemVer.splitAt_intercalate (fun name hname => (h name hname).2) hempty,
      List.filter_eq_self]
    exact fun name hname => (h name hname).1

theorem head?_joined (h : ∀ name ∈ names, isName name = true ∧ '/' ∉ name) :
    (joined names).head?.any (· == '/') = false := by
  refine (ends_intercalate '/' fun name hname => ⟨?_, ?_⟩).1
  · rintro rfl
    exact absurd (h [] hname).1 (by decide)
  · intro c hc
    exact beq_eq_false_iff_ne.mpr (ne_of_mem_of_not_mem hc (h name hname).2)

theorem names_read_append (root : Root) (cs : List Char) :
    (read (root.text ++ cs)).names = (read cs).names := by
  cases root with
  | relative => rfl
  | slash => simp [read, Root.text, SemVer.splitAt, isName]
  | twoSlashes => simp [read, Root.text, SemVer.splitAt, isName]

theorem root_read_append (root : Root) (h : cs.head?.any (· == '/') = false) :
    (read (root.text ++ cs)).root = root := by
  cases cs with
  | nil => cases root <;> rfl
  | cons c cs =>
    have hslash : c ≠ '/' := by simpa using h
    cases root <;> simp [read, Root.text, hslash]

theorem read_chars (h : p.IsSound) : read p.chars = p := by
  have hread : read (p.root.text ++ joined p.names) = p := by
    have hroot := root_read_append p.root (head?_joined h)
    have hnames := (names_read_append p.root (joined p.names)).trans (filter_splitAt_joined h)
    exact congrArg₂ Path.mk hroot hnames
  -- Only the empty path is not written as it stands, and the dot written for it says nothing.
  by_cases hempty : p.root.text ++ joined p.names = []
  · rw [hempty] at hread
    rw [chars, hempty, ← hread]
    rfl
  · rw [chars, if_neg (by simpa using hempty), hread]

theorem exists_chars_eq_cons (h : p.IsRooted) : ∃ cs, p.chars = '/' :: cs := by
  obtain ⟨root, names⟩ := p
  cases root with
  | relative => exact absurd rfl h
  | slash => exact ⟨_, rfl⟩
  | twoSlashes => exact ⟨_, rfl⟩

/-! ### The locator of a path -/

theorem isPathChar_of_isPlain (h : isPlain c = true) : isPathChar c = true ∨ c = '/' := by
  simp only [isPlain, Bool.or_eq_true, beq_iff_eq] at h
  obtain ((((h | rfl) | rfl) | rfl) | rfl) | rfl := h
  · exact .inl (isPathChar_of_ascii (by simp [h]))
  · exact .inl (by decide)
  · exact .inl (by decide)
  · exact .inl (by decide)
  · exact .inl (by decide)
  · exact .inr rfl

theorem isPathChar_percentByte (b : UInt8) : ∀ c ∈ percentByte b, isPathChar c = true := by
  have hdigit : ∀ d < 16, isPathChar (Nat.digitChar d).toUpper = true := by decide
  have hb : b.toNat < 256 := b.toNat_lt
  rw [percentByte_eq]
  intro c hc
  simp only [List.mem_cons, List.not_mem_nil, or_false] at hc
  obtain rfl | rfl | rfl := hc
  · decide
  · exact hdigit _ (by omega)
  · exact hdigit _ (by omega)

theorem isPath_percentEncode (cs : List Char) : IsPath (percentEncode isPlain cs) := by
  intro c hc
  obtain ⟨d, _, hc⟩ := List.mem_flatMap.mp hc
  split at hc
  · rename_i hplain
    rw [List.mem_singleton.mp hc]
    exact isPathChar_of_isPlain hplain
  · obtain ⟨b, _, hc⟩ := List.mem_flatMap.mp hc
    exact .inl (isPathChar_percentByte b c hc)

theorem split_uri (h : p.IsRooted) :
    ∃ url, Url.split p.uri = .ok url ∧ percentDecode url.path = p.chars := by
  obtain ⟨cs, hcs⟩ := exists_chars_eq_cons h
  have hpath : percentEncode isPlain p.chars = '/' :: percentEncode isPlain cs := by
    rw [hcs]
    rfl
  have hscheme : ∀ c ∈ ['f', 'i', 'l', 'e'], isSchemeChar c = true :=
    List.all_eq_true.mp (by decide)
  have huri : p.uri = ['f', 'i', 'l', 'e'] ++
      ':' :: '/' :: '/' :: ([] ++ '/' :: percentEncode isPlain cs) := by
    unfold uri
    rw [hpath]
    rfl
  have hsplit := split_append (by decide) hscheme (List.forall_mem_nil _)
    (isPath_percentEncode cs)
  rw [← huri] at hsplit
  refine ⟨_, hsplit, ?_⟩
  change percentDecode ('/' :: percentEncode isPlain cs) = p.chars
  rw [← hpath, percentDecode_percentEncode (by decide)]

end ModulePins.Path
