import Mathlib.Data.List.TakeWhile
import ModulePins.Document
import ModulePins.Proofs.Checked
import ModulePins.Proofs.Text.Ascii

/-!
# Names of projects

A name is accepted if it is a low line or a lower-case letter, followed by low lines, dashes,
lower-case letters and digits of ASCII. One line end after such a name is overlooked, and nothing
else is.
-/

namespace ModulePins

/-! ### Entries of mappings -/

namespace Value

variable {entries : List (Value × Value)} {key value : Value} {name other : String}

/-- No value but a text is the same as the text. -/
theorem same_text_iff : key.same (.text name) = true ↔ key = .text name := by
  cases key <;> simp [same, wholeNumber?]

theorem field?_cons (key value : Value) (rest : List (Value × Value)) (name : String) :
    field? ((key, value) :: rest) name =
      if key.same (.text name) then some value else field? rest name := by
  simp only [field?, List.find?_cons]
  cases key.same (.text name) <;> rfl

theorem field?_map_value :
    field? (entries.map fun (k, v) => if k.same (.text name) then (k, value) else (k, v)) other =
      (field? entries other).map fun v => if other = name then value else v := by
  induction entries with
  | nil => rfl
  | cons entry rest ih =>
    obtain ⟨k, v⟩ := entry
    have hentry : (if k.same (.text name) then (k, value) else (k, v)) =
        (k, if k.same (.text name) then value else v) := by split <;> rfl
    simp only [List.map_cons, hentry, field?_cons, ih]
    split
    · rename_i hsame
      rw [same_text_iff.mp hsame, Option.map_some]
      simp only [same_text_iff, text.injEq]
    · rfl

theorem field?_concat :
    field? (entries ++ [(.text name, value)]) other =
      (field? entries other).or (if other = name then some value else none) := by
  induction entries with
  | nil =>
    rw [List.nil_append, field?_cons]
    simp only [same_text_iff, text.injEq, eq_comm (a := name)]
    rfl
  | cons entry rest ih =>
    rw [List.cons_append, field?_cons, field?_cons, ih]
    split <;> rfl

theorem field?_eq_none_iff :
    field? entries name = none ↔ (entries.any fun e => e.1.same (.text name)) = false := by
  rw [field?, Option.map_eq_none_iff, List.find?_eq_none, List.any_eq_false]

theorem field?_setKey : field? (setKey entries (.text name) value) other =
    if other = name then some value else field? entries other := by
  unfold setKey
  split
  · rename_i hany
    rw [← Bool.not_eq_false, ← field?_eq_none_iff] at hany
    rw [field?_map_value]
    by_cases h : other = name
    · subst h
      obtain ⟨old, hold⟩ := Option.ne_none_iff_exists'.mp hany
      simp [hold]
    · simp [h]
  · rename_i hany
    rw [Bool.not_eq_true, ← field?_eq_none_iff] at hany
    rw [field?_concat]
    by_cases h : other = name
    · subst h
      simp [hany]
    · simp [h]

end Value

namespace Project

variable {s : String} {cs : List Char} {c : Char} {entries : List (Value × Value)} {p : Project}

/-! ### Which names are accepted -/

/-- A low line or a lower-case letter, and then low lines, dashes, lower-case letters and digits. -/
def IsProperName (cs : List Char) : Prop :=
  ∃ first rest, cs = first :: rest ∧ (first = '_' ∨ 'a' ≤ first ∧ first ≤ 'z') ∧
    ∀ c ∈ rest, c = '_' ∨ c = '-' ∨ 'a' ≤ c ∧ c ≤ 'z' ∨ '0' ≤ c ∧ c ≤ '9'

/-- A proper name, which a line end may follow. -/
def Accepts (s : String) : Prop :=
  ∃ cs, IsProperName cs ∧ (s.toList = cs ∨ s.toList = cs ++ ['\n'])

theorem startsName_iff : startsName c = true ↔ c = '_' ∨ 'a' ≤ c ∧ c ≤ 'z' := by
  simp [startsName, Text.isLower_iff]

theorem continuesName_iff : continuesName c = true ↔
    c = '_' ∨ c = '-' ∨ 'a' ≤ c ∧ c ≤ 'z' ∨ '0' ≤ c ∧ c ≤ '9' := by
  simp [continuesName, Text.isLower_iff, Text.isDigit_iff, or_assoc]

theorem isProperName_cons {first : Char} {rest : List Char} :
    IsProperName (first :: rest) ↔
      startsName first = true ∧ ∀ c ∈ rest, continuesName c = true := by
  simp only [startsName_iff, continuesName_iff]
  constructor
  · rintro ⟨_, _, ⟨rfl, rfl⟩, hproper⟩
    exact hproper
  · exact fun hproper => ⟨first, rest, rfl, hproper⟩

theorem dropWhile_eq_lineEnd_iff : cs.dropWhile continuesName = ['\n'] ↔
    ∃ name, cs = name ++ ['\n'] ∧ ∀ c ∈ name, continuesName c = true := by
  constructor
  · intro h
    refine ⟨cs.takeWhile continuesName, ?_, fun c hc => List.mem_takeWhile_imp hc⟩
    rw [← h, List.takeWhile_append_dropWhile]
  · rintro ⟨name, rfl, hname⟩
    rw [List.dropWhile_append_of_pos hname]
    rfl

theorem isName_iff : isName s = true ↔ Accepts s := by
  unfold isName Accepts
  cases s.toList with
  | nil =>
    refine ⟨nofun, ?_⟩
    rintro ⟨_, ⟨_, _, rfl, _⟩, h | h⟩ <;> cases h
  | cons first rest =>
    simp only [Bool.and_eq_true, Bool.or_eq_true, List.isEmpty_iff, beq_iff_eq,
      List.dropWhile_eq_nil_iff, dropWhile_eq_lineEnd_iff]
    constructor
    · rintro ⟨hfirst, hrest | ⟨name, rfl, hname⟩⟩
      · exact ⟨_, isProperName_cons.mpr ⟨hfirst, hrest⟩, .inl rfl⟩
      · exact ⟨_, isProperName_cons.mpr ⟨hfirst, hname⟩, .inr rfl⟩
    · rintro ⟨_, hproper, rfl | h⟩
      · have hparts := isProperName_cons.mp hproper
        exact ⟨hparts.1, .inl hparts.2⟩
      · obtain ⟨head, tail, rfl, hparts⟩ := hproper
        obtain ⟨rfl, rfl⟩ := List.cons.inj h
        simp only [← startsName_iff, ← continuesName_iff] at hparts
        exact ⟨hparts.1, .inr ⟨tail, rfl, hparts.2⟩⟩

instance (s : String) : Decidable (Accepts s) :=
  decidable_of_iff _ isName_iff

/-! ### Whole projects -/

def nameIssue (s : String) : Issue where
  complaint := .refused ("name " ++ Text.quote s ++ " must match ^[_a-z][_a-z0-9-]*$")
  place := [.key "name"]

theorem outcome_checkName (s : String) :
    (Checked.under (.key "name") (checkName (.text s))).outcome =
      if Accepts s then .ok s else .error [nameIssue s] := by
  unfold checkName
  by_cases h : isName s = true
  · rw [if_pos (isName_iff.mp h)]
    simp [Value.asText, Checked.andThen, Checked.under, h, Except.mapError]
  · rw [if_neg (mt isName_iff.mpr h)]
    simp [Value.asText, Checked.andThen, Checked.under, Checked.complain, h, Except.mapError,
      nameIssue]

/-- Accepted texts are proper names, which a line end may follow. -/
theorem accepts_of_checkName {v : Value} (h : (checkName v).outcome = .ok s) : Accepts s := by
  obtain ⟨name, _, hname⟩ := Checked.andThen_eq_ok.mp h
  by_cases haccepts : isName name = true
  · rw [if_pos haccepts] at hname
    obtain rfl := Except.ok.inj hname
    exact isName_iff.mp haccepts
  · rw [if_neg haccepts] at hname
    cases hname

theorem accepts_of_read {v : Value} (h : (read v).outcome = .ok p) : Accepts p.name := by
  cases v with
  | mapping entries =>
    simp only [read, Value.asRecord, Checked.seq_eq_ok, Checked.map_eq_ok] at h
    obtain ⟨_, _, ⟨_, _, ⟨_, _, ⟨_, _, ⟨name, hname, rfl⟩, _, rfl⟩, _, rfl⟩, _, rfl⟩, _, rfl⟩ := h
    rw [Checked.required, Checked.under_eq_ok] at hname
    split at hname
    · exact accepts_of_checkName hname
    · cases hname
  | _ => cases h

theorem optional_setKey {α : Type} {name : String} (h : name ≠ "name") (default : α)
    (f : Value → Checked α) (value : Value) :
    Checked.optional name default f (Value.setKey entries (.text "name") value) =
      Checked.optional name default f entries := by
  rw [Checked.optional, Value.field?_setKey, if_neg h, Checked.optional]

theorem required_setKey (entries : List (Value × Value)) (s : String) :
    (Checked.required "name" checkName
        (Value.setKey entries (.text "name") (.text s))).outcome =
      if Accepts s then .ok s else .error [nameIssue s] := by
  rw [Checked.required, Value.field?_setKey, if_pos rfl, outcome_checkName]

/-- With another name a project is read as before, or else it is only the name that is refused. -/
theorem read_setKey (h : (read (.mapping entries)).outcome = .ok p) (s : String) :
    (read (.mapping (Value.setKey entries (.text "name") (.text s)))).outcome =
      if Accepts s then .ok { p with name := s } else .error [nameIssue s] := by
  simp only [read, Value.asRecord, Checked.seq_eq_ok, Checked.map_eq_ok] at h
  obtain ⟨_, _, ⟨_, _, ⟨_, _, ⟨_, _, ⟨_, _, rfl⟩, hmodules, rfl⟩, hversions, rfl⟩, harguments, rfl⟩,
    hreplacements, rfl⟩ := h
  have hname := required_setKey entries s
  simp only [read, Value.asRecord, optional_setKey (by decide : "modules" ≠ "name"),
    optional_setKey (by decide : "versions" ≠ "name"),
    optional_setKey (by decide : "arguments" ≠ "name"),
    optional_setKey (by decide : "replacements" ≠ "name")]
  split
  · rename_i haccepts
    rw [if_pos haccepts] at hname
    simp only [Checked.seq_eq_ok, Checked.map_eq_ok]
    exact ⟨_, _, ⟨_, _, ⟨_, _, ⟨_, _, ⟨_, hname, rfl⟩, hmodules, rfl⟩, hversions, rfl⟩, harguments,
      rfl⟩, hreplacements, rfl⟩
  · rename_i haccepts
    rw [if_neg haccepts] at hname
    exact Checked.seq_eq_error (Checked.seq_eq_error (Checked.seq_eq_error (Checked.seq_eq_error
      (Checked.map_eq_error hname) hmodules) hversions) harguments) hreplacements

theorem accepts_of_readText {path text : String} (h : (readText path text).outcome = .ok p) :
    Accepts p.name := by
  unfold readText Document.read at h
  split at h
  · cases h
  · rename_i v _
    rw [Document.report] at h
    cases hread : (read (Document.record v)).outcome with
    | error issues => simp [hread, Except.mapError] at h
    | ok found =>
      simp only [hread, Except.mapError, Except.ok.injEq] at h
      exact h ▸ accepts_of_read hread

theorem accepts_iff_isProperName (h : s.toList.getLast? ≠ some '\n') :
    Accepts s ↔ IsProperName s.toList := by
  constructor
  · rintro ⟨cs, hproper, hcs | hcs⟩
    · rwa [hcs]
    · simp [hcs] at h
  · exact fun hproper => ⟨_, hproper, .inl rfl⟩

/-- Any project may have any text for its name that is accepted, and is refused with any other; all
that were read have such names. What is accepted are the proper names, but for those that end with a
line end. -/
theorem name_accepted (s : String) :
    (∀ entries p, (read (.mapping entries)).outcome = .ok p →
      (read (.mapping (Value.setKey entries (.text "name") (.text s)))).outcome =
        if Accepts s then .ok { p with name := s } else .error [nameIssue s]) ∧
      (s.toList.getLast? ≠ some '\n' → (Accepts s ↔ IsProperName s.toList)) ∧
      (∀ v p, (read v).outcome = .ok p → Accepts p.name) ∧
      ∀ path text p, (readText path text).outcome = .ok p → Accepts p.name :=
  ⟨fun _ _ h => read_setKey h s, accepts_iff_isProperName, fun _ _ h => accepts_of_read h,
    fun _ _ _ h => accepts_of_readText h⟩

def plainEntries : List (Value × Value) :=
  [(.text "name", .text "svc"), (.text "modules", .null)]

theorem name_accepted_plain :
    (read (.mapping (Value.setKey plainEntries (.text "name") (.text "my-svc_2")))).outcome =
        .ok { name := "my-svc_2" } ∧
      (read (.mapping (Value.setKey plainEntries (.text "name") (.text "my.svc")))).outcome =
        .error [nameIssue "my.svc"] ∧
      IsProperName "my-svc_2".toList ∧
      ∀ p, (readText "modforge.yaml" "name: svc\n").outcome = .ok p → Accepts p.name := by
  have hread : (read (.mapping plainEntries)).outcome = .ok { name := "svc" } := rfl
  refine ⟨?_, ?_, ?_, fun p h => (name_accepted "svc").2.2.2 _ _ p h⟩
  · rw [(name_accepted "my-svc_2").1 plainEntries _ hread, if_pos (by decide +kernel)]
  · rw [(name_accepted "my.svc").1 plainEntries _ hread, if_neg (by decide +kernel)]
  · exact ((name_accepted "my-svc_2").2.1 (by decide +kernel)).mp (by decide +kernel)

/-- One line end is overlooked, so a name may hold it. -/
theorem lineEnd_accepted :
    ¬IsProperName "svc\n".toList ∧
      (read (.mapping [(.text "name", .text "svc\n")])).outcome.toOption.map Project.name =
        some "svc\n" ∧
      (readText "modforge.yaml" "name: \"svc\\n\"\n").outcome.toOption.map Project.name =
        some "svc\n" := by
  refine ⟨?_, by decide +kernel, by decide +kernel⟩
  rintro ⟨first, rest, h, _, hrest⟩
  have hcs : "svc\n".toList = ['s', 'v', 'c', '\n'] := by decide +kernel
  obtain ⟨rfl, rfl⟩ := List.cons.inj (hcs.symm.trans h)
  exact absurd (hrest '\n' (by simp)) (by decide)

end Project

end ModulePins
