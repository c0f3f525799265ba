/-!
# Ledgers

A ledger keeps one entry per name, in the order in which the names were first entered.
-/

namespace ModulePins

structure Ledger (α : Type) where
  entries : List (String × α) := []
  deriving Repr, Inhabited

namespace Ledger

variable {α : Type}

def empty : Ledger α :=
  ⟨[]⟩

def get? (l : Ledger α) (name : String) : Option α :=
  l.entries.lookup name

def names (l : Ledger α) : List String :=
  l.entries.map Prod.fst

/-- Replaces the first entry of a name, or adds one at the end. -/
def putIn (name : String) (a : α) : List (String × α) → List (String × α)
  | [] => [(name, a)]
  | (k, b) :: rest => if name = k then (k, a) :: rest else (k, b) :: putIn name a rest

def put (l : Ledger α) (name : String) (a : α) : Ledger α :=
  ⟨putIn name a l.entries⟩

/-- Enters all of a list; later ones replace earlier ones. -/
def ofList (entries : List (String × α)) : Ledger α :=
  entries.foldl (fun l (name, a) => l.put name a) empty

theorem lookup_putIn (name other : String) (a : α) (entries : List (String × α)) :
    (putIn name a entries).lookup other =
      if other = name then some a else entries.lookup other := by
  induction entries with
  | nil =>
    by_cases h : other = name
    · simp [putIn, h]
    · have : (other == name) = false := by simpa using h
      simp [putIn, List.lookup_cons, h, this]
  | cons head rest ih =>
    obtain ⟨k, b⟩ := head
    by_cases ho : other = k
    · by_cases h : name = k
      · simp [putIn, h, ho]
      · simp [putIn, h, ho, Ne.symm h]
    · have hk : (other == k) = false := by simpa using ho
      by_cases h : name = k
      · simp [putIn, List.lookup_cons, hk, h, ho]
      · simp [putIn, List.lookup_cons, hk, h, ih]

@[simp]
theorem get?_put (l : Ledger α) (name other : String) (a : α) :
    (l.put name a).get? other = if other = name then some a else l.get? other :=
  lookup_putIn name other a l.entries

@[simp]
theorem get?_empty (name : String) : (empty : Ledger α).get? name = none := rfl

theorem mem_names (l : Ledger α) (name : String) :
    name ∈ l.names ↔ ∃ a, l.get? name = some a := by
  obtain ⟨entries⟩ := l
  simp only [names, get?]
  induction entries with
  | nil => simp
  | cons head rest ih =>
    obtain ⟨k, b⟩ := head
    by_cases h : name = k
    · simp [h]
    · have hk : (name == k) = false := by simpa using h
      simp [List.lookup_cons, hk, h, ih]

theorem mem_names_put (l : Ledger α) (name other : String) (a : α) :
    other ∈ (l.put name a).names ↔ other = name ∨ other ∈ l.names := by
  rw [mem_names, mem_names, get?_put]
  by_cases h : other = name <;> simp [h]

theorem nodup_names_put {l : Ledger α} (h : l.names.Nodup) (name : String) (a : α) :
    (l.put name a).names.Nodup := by
  obtain ⟨entries⟩ := l
  simp only [names, put] at h ⊢
  induction entries with
  | nil => simp [putIn]
  | cons head rest ih =>
    obtain ⟨k, b⟩ := head
    rw [List.map_cons, List.nodup_cons] at h
    by_cases hk : name = k
    · simpa [putIn, hk] using h
    · rw [putIn, if_neg hk, List.map_cons, List.nodup_cons]
      refine ⟨?_, ih h.2⟩
      intro hmem
      rcases (mem_names_put ⟨rest⟩ name k a).mp hmem with rfl | hrest
      · exact hk rfl
      · exact h.1 hrest

theorem mem_entries_of_get? {l : Ledger α} {name : String} {a : α} (h : l.get? name = some a) :
    (name, a) ∈ l.entries := by
  obtain ⟨before, after, hsplit, _⟩ := List.lookup_eq_some_iff.mp h
  rw [hsplit]
  simp

theorem get?_of_mem_entries {l : Ledger α} (hnodup : l.names.Nodup) {name : String} {a : α}
    (h : (name, a) ∈ l.entries) : l.get? name = some a := by
  obtain ⟨entries⟩ := l
  simp only [names, get?] at hnodup h ⊢
  induction entries with
  | nil => cases h
  | cons head rest ih =>
    obtain ⟨k, b⟩ := head
    rw [List.map_cons, List.nodup_cons] at hnodup
    rcases List.mem_cons.mp h with hhead | hrest
    · obtain ⟨rfl, rfl⟩ := Prod.mk.inj hhead
      simp
    · have hne : name ≠ k := by
        rintro rfl
        exact hnodup.1 (List.mem_map.mpr ⟨(name, a), hrest, rfl⟩)
      have hk : (name == k) = false := by simpa using hne
      simp [List.lookup_cons, hk, ih hnodup.2 hrest]

theorem get?_foldl_put (entries : List (String × α)) (l : Ledger α) (name : String) :
    (entries.foldl (fun l (k, a) => l.put k a) l).get? name =
      (entries.reverse.lookup name).or (l.get? name) := by
  induction entries generalizing l with
  | nil => simp
  | cons head rest ih =>
    obtain ⟨k, a⟩ := head
    simp only [List.foldl_cons, ih, get?_put, List.reverse_cons, List.lookup_append,
      Option.or_assoc]
    by_cases h : name = k
    · simp [h]
    · have hk : (name == k) = false := by simpa using h
      simp [h, List.lookup_cons, hk]

/-- Of several entries for one name the last one counts. -/
theorem get?_ofList (entries : List (String × α)) (name : String) :
    (ofList entries).get? name = entries.reverse.lookup name := by
  simp [ofList, get?_foldl_put]

end Ledger

end ModulePins
