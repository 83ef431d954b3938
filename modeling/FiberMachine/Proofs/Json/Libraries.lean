import Mathlib.Order.MinMax
import FiberMachine.Json.Library

/-!
# What is relied on of a library for JSON

A library reads back what it has printed as long as no more lists and objects are open than a
reader goes through, and the numbers are ones that it reads back. What has more levels it refuses.
-/

namespace FiberMachine

open JsonText

namespace JsonTree

mutual

/-- How many lists and objects are open at the deepest place of a tree. -/
def levels : JsonTree → Nat
  | .array items => levelsOfItems items + 1
  | .object entries => levelsOfEntries entries + 1
  | _ => 0

def levelsOfItems : List JsonTree → Nat
  | [] => 0
  | item :: rest => max item.levels (levelsOfItems rest)

def levelsOfEntries : List (String × JsonTree) → Nat
  | [] => 0
  | (_, item) :: rest => max item.levels (levelsOfEntries rest)

end

mutual

/-- A tree whose doubles are finite and of a given kind. -/
def Legible (Good : Float → Prop) : JsonTree → Prop
  | .double x => x.isFinite ∧ Good x
  | .array items => LegibleItems Good items
  | .object entries => LegibleEntries Good entries
  | _ => True

def LegibleItems (Good : Float → Prop) : List JsonTree → Prop
  | [] => True
  | item :: rest => item.Legible Good ∧ LegibleItems Good rest

def LegibleEntries (Good : Float → Prop) : List (String × JsonTree) → Prop
  | [] => True
  | (_, item) :: rest => item.Legible Good ∧ LegibleEntries Good rest

end

variable {Good : Float → Prop} {items : List JsonTree} {n : Nat}

theorem legibleItems_iff : LegibleItems Good items ↔ ∀ t ∈ items, t.Legible Good := by
  induction items with
  | nil => simp [LegibleItems]
  | cons item rest ih => simp [LegibleItems, ih]

theorem levelsOfItems_le : levelsOfItems items ≤ n ↔ ∀ t ∈ items, t.levels ≤ n := by
  induction items with
  | nil => simp [levelsOfItems]
  | cons item rest ih => simp [levelsOfItems, ih]

end JsonTree

namespace JsonValue

/-- How many lists and objects are open at the deepest place of a value. -/
def levels (j : JsonValue) : Nat := j.tree.levels

mutual

/-- A value whose numbers are finite and of a given kind, and whose objects have their entries
in order. -/
def Legible (Good : Float → Prop) : JsonValue → Prop
  | .number x => x.isFinite ∧ Good x
  | .array items => LegibleItems Good items
  | .object entries => entries.Pairwise (·.1 < ·.1) ∧ LegibleEntries Good entries
  | _ => True

def LegibleItems (Good : Float → Prop) : List JsonValue → Prop
  | [] => True
  | item :: rest => item.Legible Good ∧ LegibleItems Good rest

def LegibleEntries (Good : Float → Prop) : List (String × JsonValue) → Prop
  | [] => True
  | entry :: rest => entry.2.Legible Good ∧ LegibleEntries Good rest

end

variable {Good : Float → Prop} {items : List JsonValue} {entries : List (String × JsonValue)}
  {n : Nat}

theorem legibleItems_iff : LegibleItems Good items ↔ ∀ j ∈ items, j.Legible Good := by
  induction items with
  | nil => simp [LegibleItems]
  | cons item rest ih => simp [LegibleItems, ih]

theorem legibleEntries_iff : LegibleEntries Good entries ↔ ∀ e ∈ entries, e.2.Legible Good := by
  induction entries with
  | nil => simp [LegibleEntries]
  | cons entry rest ih => simp [LegibleEntries, ih]

theorem treeItems_eq (items : List JsonValue) : treeItems items = items.map tree := by
  induction items with
  | nil => rfl
  | cons item rest ih => rw [treeItems, ih, List.map_cons]

theorem treeEntries_eq (entries : List (String × JsonValue)) :
    treeEntries entries = entries.map fun e => (e.1, e.2.tree) := by
  induction entries with
  | nil => rfl
  | cons entry rest ih => rw [treeEntries, ih, List.map_cons]

theorem levelsOfItems_le :
    JsonTree.levelsOfItems (treeItems items) ≤ n ↔ ∀ j ∈ items, j.levels ≤ n := by
  simp [JsonTree.levelsOfItems_le, treeItems_eq, levels]

theorem levelsOfEntries_le :
    JsonTree.levelsOfEntries (treeEntries entries) ≤ n ↔ ∀ e ∈ entries, e.2.levels ≤ n := by
  induction entries with
  | nil => simp [treeEntries, JsonTree.levelsOfEntries]
  | cons entry rest ih => simp [treeEntries, JsonTree.levelsOfEntries, ih, levels]

end JsonValue

namespace JsonLibrary

variable (lib : JsonLibrary)

/-- The text of a number is read as the number again. -/
def ReadsBack (x : Float) : Prop :=
  ∀ layout, lib.parse (lib.render layout (.number x)) = .ok (.number x)

/-- A library that reads what it has printed, if the numbers in it are read back and no more
than 127 lists and objects are open at any place, and refuses what has more levels. -/
structure PrintsAndReads : Prop where
  reads : ∀ {j : JsonValue} (layout : JsonText.Layout), j.Legible lib.ReadsBack →
    j.levels ≤ maxDepth → lib.parse (lib.render layout j) = .ok j
  refuses : ∀ {j : JsonValue} (layout : JsonText.Layout), j.Legible lib.ReadsBack →
    maxDepth < j.levels → ∃ e, lib.parse (lib.render layout j) = .error e

end JsonLibrary

end FiberMachine
