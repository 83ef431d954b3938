import FiberMachine.Config
import FiberMachine.Heap.Collect
import Mathlib.Algebra.Order.Ring.Nat
import Mathlib.Data.List.Induction

/-!
# Thresholds

A heap counts bytes in words. As long as every sum on the way fits in a word, the words count what
there is. A collection sets the threshold to the bytes that are left times the growth factor, and a
growth that goes beyond it asks for the next collection. The product is a word as well, and the
configuration puts no bound on the factor: a product that does not fit loses its upper part, and
then the threshold may lie below the bytes that are counted.
-/

namespace FiberMachine

namespace Heap

/-- What is asked of a heap that holds no objects. -/
inductive Request where
  | resize (old new : UInt64)
  | collect (roots : List Handle)

def serve (h : Heap) : Request → Heap
  | .resize old new => h.reallocate old new
  | .collect roots => (h.collect roots).1

/-- The heap of a configuration after a row of requests. -/
def served (c : Config) (rs : List Request) : Heap :=
  rs.foldl serve (withThreshold (.ofNat c.collectAt) (.ofNat c.collectGrowth))

namespace Request

def Resizes : Request → Prop
  | .resize .. => True
  | .collect _ => False

/-- The bytes that are counted, in numbers without a bound. None are counted below zero. -/
def tally (total : Nat) : Request → Nat
  | .resize old new => total + new.toNat - old.toNat
  | .collect _ => total

/-- The sum that is formed on the way fits in a word. -/
def Fits (total : Nat) : Request → Prop
  | .resize _ new => total + new.toNat ≤ Config.wordLimit
  | .collect _ => True

instance (total : Nat) : (r : Request) → Decidable (r.Fits total)
  | .resize _ new => inferInstanceAs (Decidable (total + new.toNat ≤ Config.wordLimit))
  | .collect _ => inferInstanceAs (Decidable True)

def total (rs : List Request) : Nat := rs.foldl tally 0

def Fit (rs : List Request) : Prop :=
  ∀ before r rest, rs = before ++ r :: rest → r.Fits (total before)

/-- Nothing has been counted since the beginning or since a collection. -/
def Begins (rs : List Request) : Prop := rs = [] ∨ ∃ before roots, rs = before ++ [.collect roots]

variable {rs : List Request} {r : Request}

theorem total_snoc (rs : List Request) (r : Request) :
    total (rs ++ [r]) = r.tally (total rs) := by
  simp [total]

/-- The last request of a row is the one that is looked at, or it comes behind. -/
theorem snoc_eq {l before rest : List Request} {s : Request}
    (heq : l ++ [r] = before ++ s :: rest) :
    before = l ∧ s = r ∧ rest = [] ∨ ∃ rest', l = before ++ s :: rest' ∧ rest = rest' ++ [r] := by
  rcases List.eq_nil_or_concat rest with rfl | ⟨rest, t, rfl⟩
  · obtain ⟨rfl, hr⟩ := List.append_inj' heq rfl
    exact .inl ⟨rfl, (List.head_eq_of_cons_eq hr).symm, rfl⟩
  · have heq : l ++ [r] = (before ++ s :: rest) ++ [t] := by simpa using heq
    obtain ⟨hl, hr⟩ := List.append_inj' heq rfl
    exact .inr ⟨rest, hl, by rw [List.concat_eq_append, hr]⟩

theorem fit_nil : Fit [] := by
  intro before r rest heq
  simp at heq

theorem fit_snoc : Fit (rs ++ [r]) ↔ Fit rs ∧ r.Fits (total rs) := by
  constructor
  · intro hf
    refine ⟨fun before s rest heq => hf before s (rest ++ [r]) (by simp [heq]), hf rs r [] rfl⟩
  · rintro ⟨hf, hlast⟩ before s rest heq
    obtain ⟨rfl, rfl, -⟩ | ⟨rest, heq, -⟩ := snoc_eq heq
    · exact hlast
    · exact hf before s rest heq

end Request

open Heap.Request

variable {h : Heap} {c : Config} {rs before later : List Request} {r : Request}

/-! ## One request -/

theorem toNat_reallocate {total : Nat} {old new : UInt64} (hbytes : h.bytes.toNat = total)
    (hfits : Fits total (.resize old new)) :
    (h.reallocate old new).bytes.toNat = tally total (.resize old new) := by
  have hsum : (h.bytes + new).toNat = total + new.toNat := by
    rw [UInt64.toNat_add, hbytes]
    exact Nat.mod_eq_of_lt (Nat.lt_of_le_of_lt hfits (by decide))
  simp only [reallocate, tally]
  split
  · rename_i hle
    rw [UInt64.toNat_sub_of_le _ _ hle, hsum]
  · rename_i hlt
    rw [UInt64.le_iff_toNat_le, hsum] at hlt
    exact (Nat.sub_eq_zero_of_le (Nat.le_of_not_le hlt)).symm

/-- Without slots there is nothing to mark and nothing to sweep. -/
theorem collect_of_no_slots (hs : h.slots = #[]) (roots : List Handle) :
    (h.collect roots).1 = h.forgetTexts.settle := by
  have hget (r : Handle) : h.get? r = none := by simp [get?, slot?, hs]
  have hmark : roots.foldl mark (h, []) = (h, []) := by
    induction roots with
    | nil => rfl
    | cons r rest ih =>
      rw [List.foldl_cons, mark, hget]
      exact ih
  have hfrom : h.markFrom roots = h := by rw [markFrom, hmark, trace]
  have hsweep : h.forgetTexts.sweep = (h.forgetTexts, 0) := by simp [sweep, forgetTexts, hs]
  simp only [collect, hfrom, hsweep]

/-! ## A row of requests -/

@[simp] theorem served_snoc (c : Config) (rs : List Request) (r : Request) :
    served c (rs ++ [r]) = (served c rs).serve r := by
  simp [served]

theorem slots_served (c : Config) (rs : List Request) : (served c rs).slots = #[] := by
  induction rs using List.reverseRecOn with
  | nil => rfl
  | append_singleton rs r ih =>
    rw [served_snoc]
    cases r with
    | resize old new => exact ih
    | collect roots =>
      rw [serve, collect_of_no_slots ih]
      exact ih

theorem served_collect (c : Config) (rs : List Request) (roots : List Handle) :
    served c (rs ++ [.collect roots]) = (served c rs).forgetTexts.settle := by
  rw [served_snoc]
  exact collect_of_no_slots (slots_served c rs) roots

/-- What the configuration gives never changes. -/
theorem given_served (c : Config) (rs : List Request) :
    (served c rs).growth = max (.ofNat c.collectGrowth) 1 ∧
      (served c rs).leastThreshold = .ofNat c.collectAt := by
  induction rs using List.reverseRecOn with
  | nil => exact ⟨rfl, rfl⟩
  | append_singleton rs r ih =>
    cases r with
    | resize old new =>
      rw [served_snoc]
      exact ih
    | collect roots =>
      rw [served_collect]
      exact ih

theorem toNat_served (hf : Fit rs) : (served c rs).bytes.toNat = total rs := by
  induction rs using List.reverseRecOn with
  | nil => rfl
  | append_singleton rs r ih =>
    obtain ⟨hf, hlast⟩ := fit_snoc.mp hf
    have hbytes := ih hf
    rw [total_snoc]
    cases r with
    | resize old new =>
      rw [served_snoc]
      exact toNat_reallocate hbytes hlast
    | collect roots =>
      rw [served_collect]
      exact hbytes

theorem pending_collected (c : Config) (rs : List Request) (roots : List Handle) :
    (served c (rs ++ [.collect roots])).pending = false := by
  rw [served_collect, settle]

/-! ## After a collection -/

/-- A configuration that is valid and whose numbers are words. -/
structure Accepted (c : Config) : Prop where
  validated : c.validate = .ok c
  collectAt_le : c.collectAt ≤ Config.wordLimit
  collectGrowth_le : c.collectGrowth ≤ Config.wordLimit

theorem toNat_word {n : Nat} (hn : n ≤ Config.wordLimit) : (UInt64.ofNat n).toNat = n :=
  UInt64.toNat_ofNat_of_lt' (Nat.lt_of_le_of_lt hn (by decide))

theorem toNat_max (a b : UInt64) : (max a b).toNat = max a.toNat b.toNat := by
  change (if a ≤ b then b else a).toNat = _
  split
  · rename_i hle
    exact (Nat.max_eq_right (UInt64.le_iff_toNat_le.mp hle)).symm
  · rename_i hlt
    rw [UInt64.le_iff_toNat_le] at hlt
    exact (Nat.max_eq_left (Nat.le_of_not_le hlt)).symm

/-- The growth factor is the one of the configuration, since a valid one is not zero. -/
theorem Accepted.growth (hc : Accepted c) (rs : List Request) :
    (served c rs).growth.toNat = c.collectGrowth := by
  have hpos : 0 < c.collectGrowth := ((Config.validate_eq_ok_iff c c).mp hc.validated).2.growth
  rw [(given_served c rs).1, toNat_max, toNat_word hc.collectGrowth_le]
  exact Nat.max_eq_left hpos

theorem Accepted.threshold_collected (hc : Accepted c) (hf : Fit rs) (roots : List Handle) :
    (served c (rs ++ [.collect roots])).threshold.toNat =
      max (total rs * c.collectGrowth % 2 ^ 64) c.collectAt := by
  have hbytes : (served c rs).forgetTexts.bytes.toNat = total rs := toNat_served hf
  have hgrowth : (served c rs).forgetTexts.growth.toNat = c.collectGrowth := hc.growth rs
  have hleast : (served c rs).forgetTexts.leastThreshold = .ofNat c.collectAt :=
    (given_served c rs).2
  rw [served_collect, settle]
  dsimp only
  rw [toNat_max, UInt64.toNat_mul, hbytes, hgrowth, hleast, toNat_word hc.collectAt_le]

/-- A product that does not fit is larger than any threshold. -/
theorem Accepted.threshold_collected_iff (hc : Accepted c) (hf : Fit rs) (roots : List Handle) :
    (served c (rs ++ [.collect roots])).threshold.toNat =
        max (total rs * c.collectGrowth) c.collectAt ↔
      total rs * c.collectGrowth ≤ Config.wordLimit := by
  constructor
  · intro heq
    have hword := (served c (rs ++ [.collect roots])).threshold.toNat_lt
    have hlimit : Config.wordLimit + 1 = 2 ^ 64 := by decide
    have hle := Nat.le_max_left (total rs * c.collectGrowth) c.collectAt
    omega
  · intro hle
    have hlt : total rs * c.collectGrowth < 2 ^ 64 := Nat.lt_of_le_of_lt hle (by decide)
    rw [hc.threshold_collected hf, Nat.mod_eq_of_lt hlt]

theorem Accepted.total_le_threshold (hc : Accepted c) (hf : Fit rs) (roots : List Handle)
    (hle : total rs * c.collectGrowth ≤ Config.wordLimit) :
    total rs ≤ (served c (rs ++ [.collect roots])).threshold.toNat := by
  have hpos : 0 < c.collectGrowth := ((Config.validate_eq_ok_iff c c).mp hc.validated).2.growth
  calc total rs ≤ total rs * c.collectGrowth := Nat.le_mul_of_pos_right _ hpos
    _ ≤ max (total rs * c.collectGrowth) c.collectAt := Nat.le_max_left ..
    _ = _ := ((hc.threshold_collected_iff hf roots).mpr hle).symm

/-! ## Between collections -/

theorem threshold_later (c : Config) (before : List Request) (hl : ∀ r ∈ later, r.Resizes) :
    (served c (before ++ later)).threshold = (served c before).threshold := by
  induction later using List.reverseRecOn with
  | nil => rw [List.append_nil]
  | append_singleton later r ih =>
    rw [← List.append_assoc, served_snoc]
    cases r with
    | resize old new => exact ih fun r hr => hl r (List.mem_append_left _ hr)
    | collect roots => exact absurd (hl _ (List.mem_append_right _ List.mem_cons_self)) id

/-- A request among the later ones that grows and leaves more bytes than the threshold allows. -/
def Exceeds (threshold : Nat) (before later : List Request) : Prop :=
  ∃ earlier old new rest, later = earlier ++ .resize old new :: rest ∧ old < new ∧
    threshold < total (before ++ earlier ++ [.resize old new])

theorem exceeds_snoc {threshold : Nat} {old new : UInt64} :
    Exceeds threshold before (later ++ [.resize old new]) ↔ Exceeds threshold before later ∨
      old < new ∧ threshold < total (before ++ later ++ [.resize old new]) := by
  constructor
  · rintro ⟨earlier, old', new', rest, heq, hlt, habove⟩
    obtain ⟨rfl, heq, -⟩ | ⟨rest, heq, -⟩ := snoc_eq heq
    · cases heq
      exact .inr ⟨hlt, habove⟩
    · exact .inl ⟨earlier, old', new', rest, heq, hlt, habove⟩
  · rintro (⟨earlier, old', new', rest, rfl, hlt, habove⟩ | ⟨hlt, habove⟩)
    · exact ⟨earlier, old', new', rest ++ [.resize old new], by simp, hlt, habove⟩
    · exact ⟨later, old, new, [], rfl, hlt, habove⟩

theorem pending_begins (hb : Begins before) : (served c before).pending = false := by
  obtain rfl | ⟨rs, roots, rfl⟩ := hb
  · rfl
  · exact pending_collected c rs roots

theorem pending_later_iff (hb : Begins before) (hl : ∀ r ∈ later, r.Resizes)
    (hf : Fit (before ++ later)) : (served c (before ++ later)).pending = true ↔
      Exceeds (served c before).threshold.toNat before later := by
  induction later using List.reverseRecOn with
  | nil =>
    rw [List.append_nil, pending_begins hb]
    simp [Exceeds]
  | append_singleton later r ih =>
    have hl' : ∀ r ∈ later, r.Resizes := fun r hr => hl r (List.mem_append_left _ hr)
    rw [← List.append_assoc] at hf ⊢
    cases r with
    | collect roots => exact absurd (hl _ (List.mem_append_right _ List.mem_cons_self)) id
    | resize old new =>
      have hbytes := toNat_served (c := c) hf
      rw [served_snoc, serve] at hbytes ⊢
      rw [exceeds_snoc, ← ih hl' (fit_snoc.mp hf).1, ← hbytes, ← threshold_later c before hl']
      simp only [reallocate, Bool.or_eq_true, Bool.and_eq_true, decide_eq_true_eq]
      rfl

/-! ## What is guaranteed -/

/-- For every row of requests whose sums fit in a word, the bytes are counted without loss, and
collections are asked for exactly by growth beyond the threshold. The threshold after a collection
is the product that it ought to be if and only if the product fits in a word. -/
structure ThresholdGuarantees (c : Config) : Prop where
  initial : (served c []).threshold.toNat = c.collectAt
  counted : ∀ {rs}, Fit rs → (served c rs).bytes.toNat = total rs
  calm : ∀ rs roots, (served c (rs ++ [.collect roots])).pending = false
  wraps : ∀ {rs} roots, Fit rs → (served c (rs ++ [.collect roots])).threshold.toNat =
    max (total rs * c.collectGrowth % 2 ^ 64) c.collectAt
  exact_iff : ∀ {rs} roots, Fit rs → ((served c (rs ++ [.collect roots])).threshold.toNat =
    max (total rs * c.collectGrowth) c.collectAt ↔
      total rs * c.collectGrowth ≤ Config.wordLimit)
  covers : ∀ {rs} roots, Fit rs → total rs * c.collectGrowth ≤ Config.wordLimit →
    total rs ≤ (served c (rs ++ [.collect roots])).threshold.toNat
  steady : ∀ before {later}, (∀ r ∈ later, Resizes r) →
    (served c (before ++ later)).threshold = (served c before).threshold
  asks_iff : ∀ {before later}, Begins before → (∀ r ∈ later, Resizes r) → Fit (before ++ later) →
    ((served c (before ++ later)).pending = true ↔
      Exceeds (served c before).threshold.toNat before later)

theorem thresholdGuarantees (hc : Accepted c) : ThresholdGuarantees c where
  initial := toNat_word hc.collectAt_le
  counted := toNat_served
  calm := pending_collected c
  wraps roots hf := hc.threshold_collected hf roots
  exact_iff roots hf := hc.threshold_collected_iff hf roots
  covers roots hf := hc.total_le_threshold hf roots
  steady before _ := threshold_later c before
  asks_iff := pending_later_iff

/-- A factor that takes the product out of the word. -/
def steep : Config := { collectAt := 1024, collectGrowth := 2 ^ 48 }

/-- With such a factor the least growth after a collection asks for the next one. -/
theorem thresholdGuarantees_steep :
    Accepted steep ∧ ThresholdGuarantees steep ∧ Fit [.resize 0 0x10000] ∧
      total [.resize 0 0x10000] = 0x10000 ∧
      (served steep [.resize 0 0x10000, .collect []]).threshold.toNat = 1024 ∧
      (served steep [.resize 0 0x10000, .collect [], .resize 0 1]).pending = true := by
  have hc : Accepted steep := ⟨rfl, by decide, by decide⟩
  have hg : ThresholdGuarantees steep := thresholdGuarantees hc
  have hfit : Fit [.resize 0 0x10000] := fit_snoc.mpr ⟨fit_nil, by decide⟩
  have hlater : Fit ([.resize 0 0x10000, .collect []] ++ [.resize 0 1]) :=
    fit_snoc.mpr ⟨fit_snoc.mpr ⟨hfit, by decide⟩, by decide⟩
  have hresizes : ∀ r ∈ [Request.resize 0 1], r.Resizes := by
    intro r hr
    rw [List.mem_singleton.mp hr]
    trivial
  have hthreshold : (served steep [.resize 0 0x10000, .collect []]).threshold.toNat = 1024 :=
    hg.wraps [] hfit
  have hasks := hg.asks_iff (.inr ⟨[.resize 0 0x10000], [], rfl⟩) hresizes hlater
  refine ⟨hc, hg, hfit, rfl, hthreshold, hasks.mpr ⟨[], 0, 1, [], rfl, by decide, ?_⟩⟩
  exact Nat.lt_of_le_of_lt (Nat.le_of_eq hthreshold) (by decide)

end Heap

end FiberMachine
