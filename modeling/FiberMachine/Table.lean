/-!
# Tables

A table is a finite map from keys to values. It keeps its entries in a list with
the newest key first; a key that is already there keeps its place. No result of
the functions below depends on that order except through `toList`.
-/

namespace FiberMachine

structure Table (κ α : Type) where
  entries : List (κ × α)
  nodup : (entries.map Prod.fst).Nodup

namespace Table

variable {κ α β : Type} [DecidableEq κ]

def empty : Table κ α := ⟨[], List.nodup_nil⟩

instance : Inhabited (Table κ α) := ⟨empty⟩

def toList (t : Table κ α) : List (κ × α) := t.entries

def keys (t : Table κ α) : List κ := t.entries.map Prod.fst

def size (t : Table κ α) : Nat := t.entries.length

def find (key : κ) : List (κ × α) → Option α
  | [] => none
  | (k, a) :: rest => if k = key then some a else find key rest

def find? (t : Table κ α) (key : κ) : Option α := find key t.entries

def contains (t : Table κ α) (key : κ) : Bool := (t.find? key).isSome

def replace (key : κ) (a : α) : List (κ × α) → List (κ × α)
  | [] => []
  | (k, b) :: rest => if k = key then (k, a) :: rest else (k, b) :: replace key a rest

theorem map_fst_replace (key : κ) (a : α) (l : List (κ × α)) :
    (replace key a l).map Prod.fst = l.map Prod.fst := by
  induction l with
  | nil => rfl
  | cons e rest ih =>
    obtain ⟨k, b⟩ := e
    simp only [replace]
    split
    · rfl
    · simp [ih]

theorem find_eq_none_iff (key : κ) (l : List (κ × α)) :
    find key l = none ↔ key ∉ l.map Prod.fst := by
  induction l with
  | nil => simp [find]
  | cons e rest ih =>
    obtain ⟨k, b⟩ := e
    by_cases h : k = key
    · simp [find, h]
    · simp [find, h, ih, Ne.symm h]

def insert (t : Table κ α) (key : κ) (a : α) : Table κ α :=
  match h : find key t.entries with
  | some _ => ⟨replace key a t.entries, by rw [map_fst_replace]; exact t.nodup⟩
  | none => ⟨(key, a) :: t.entries, by
      rw [List.map_cons, List.nodup_cons]
      exact ⟨(find_eq_none_iff key t.entries).1 h, t.nodup⟩⟩

/-- The entries with a property. -/
def filter (t : Table κ α) (p : κ → α → Bool) : Table κ α :=
  ⟨t.entries.filter fun e => p e.1 e.2,
    List.Sublist.nodup (List.Sublist.map Prod.fst List.filter_sublist) t.nodup⟩

def erase (t : Table κ α) (key : κ) : Table κ α := t.filter fun k _ => k != key

theorem find_replace_self (key : κ) (a : α) {l : List (κ × α)} {b : α}
    (h : find key l = some b) : find key (replace key a l) = some a := by
  induction l with
  | nil => simp [find] at h
  | cons e rest ih =>
    obtain ⟨k, c⟩ := e
    by_cases hk : k = key
    · simp [replace, find, hk]
    · simp only [find, hk, ↓reduceIte] at h
      simp [replace, find, hk, ih h]

theorem find_replace_ne {key other : κ} (hne : other ≠ key) (a : α) (l : List (κ × α)) :
    find other (replace key a l) = find other l := by
  induction l with
  | nil => rfl
  | cons e rest ih =>
    obtain ⟨k, c⟩ := e
    by_cases hk : k = key
    · have ho : k ≠ other := fun h => hne (h.symm.trans hk)
      simp [replace, find, hk, hk ▸ ho]
    · simp only [replace, hk, ↓reduceIte, find, ih]

@[simp] theorem find?_empty (key : κ) : (empty : Table κ α).find? key = none := rfl

theorem find?_insert_self (t : Table κ α) (key : κ) (a : α) :
    (t.insert key a).find? key = some a := by
  unfold insert
  split
  · exact find_replace_self key a (by assumption)
  · simp [find?, find]

theorem find?_insert_ne (t : Table κ α) {key other : κ} (h : other ≠ key) (a : α) :
    (t.insert key a).find? other = t.find? other := by
  unfold insert
  split
  · exact find_replace_ne h a t.entries
  · simp [find?, find, Ne.symm h]

theorem find_filter (p : κ → α → Bool) (key : κ) {l : List (κ × α)}
    (hl : (l.map Prod.fst).Nodup) :
    find key (l.filter fun e => p e.1 e.2) = (find key l).filter (p key) := by
  induction l with
  | nil => rfl
  | cons e rest ih =>
    obtain ⟨k, b⟩ := e
    rw [List.map_cons, List.nodup_cons] at hl
    by_cases hk : k = key
    · subst hk
      have hrest : find k rest = none := (find_eq_none_iff k rest).mpr hl.1
      by_cases hp : p k b
      · simp [find, hp, Option.filter]
      · simp [find, hp, ih hl.2, hrest, Option.filter]
    · by_cases hp : p k b
      · simp [find, hp, hk, ih hl.2]
      · simp [find, hp, hk, ih hl.2]

theorem find_eq_some_iff {key : κ} {a : α} {l : List (κ × α)} (hl : (l.map Prod.fst).Nodup) :
    find key l = some a ↔ (key, a) ∈ l := by
  induction l with
  | nil => simp [find]
  | cons e rest ih =>
    obtain ⟨k, b⟩ := e
    rw [List.map_cons, List.nodup_cons] at hl
    by_cases hk : k = key
    · subst hk
      have hrest : (k, a) ∉ rest := fun hm => hl.1 (List.mem_map.mpr ⟨_, hm, rfl⟩)
      simp [find, hrest, eq_comm]
    · simp [find, hk, ih hl.2, Ne.symm hk]

theorem find?_eq_some_iff {t : Table κ α} {key : κ} {a : α} :
    t.find? key = some a ↔ (key, a) ∈ t.toList :=
  find_eq_some_iff t.nodup

theorem find?_filter (t : Table κ α) (p : κ → α → Bool) (key : κ) :
    (t.filter p).find? key = (t.find? key).filter (p key) :=
  find_filter p key t.nodup

end Table

end FiberMachine
