import FiberMachine.Proofs.Heap.Places
import FiberMachine.Proofs.Json.Trees
import FiberMachine.Proofs.Machine.Windows

/-!
# Subscripts and slices

A subscript succeeds exactly where the index names a place of the array or text, and it reads or
writes the item at this place; a slice succeeds exactly between two bounds that are in order. When
they fail, they leave the heap as it was.
-/

namespace FiberMachine

namespace Heap

variable {h : Heap} {r : Handle} {items : Array Value} {s : String}
  {target index v start stop : Value}

/-! ## On the heap -/

/-- What is done with what has been found, or the failure to find it. -/
def withFound {α β : Type} (h : Heap) (e : Except Fault α) (f : α → Heap × β) :
    EStateM.Result Fault Heap β :=
  match e with
  | .ok a => .ok (f a).2 (f a).1
  | .error fault => .error fault h

theorem item_of_array (hd : target.toHandle? = some r) (ha : h.array r = .ok items) :
    item target index h = h.withFound (place index items.size) fun i =>
      (h, getElem items i.1 i.2) := by
  obtain ⟨o, ho, hb⟩ := array_eq_ok.mp ha
  simp only [item, hd, bind_apply, get_apply, Heap.get, ho, except_apply, hb, itemOf]
  cases place index items.size <;> rfl

/-- The character that is read is a text of its own. -/
theorem item_of_text (hd : target.toHandle? = some r) (ht : h.text r = .ok s) :
    item target index h = h.withFound (place index s.toList.length) fun i =>
      ((h.intern (.singleton (s.toList.get i))).1,
        .ofHandle (h.intern (.singleton (s.toList.get i))).2) := by
  obtain ⟨o, ho, hb⟩ := text_eq_ok.mp ht
  simp only [item, hd, bind_apply, get_apply, Heap.get, ho, except_apply, hb, itemOf]
  cases place index s.toList.length <;> rfl

theorem setItem_of_array (hd : target.toHandle? = some r) (ha : h.array r = .ok items) :
    setItem target index v h = h.withFound (place index items.size) fun i =>
      (h.update r (changeArray (·.setIfInBounds i v)), ()) := by
  obtain ⟨o, ho, hb⟩ := array_eq_ok.mp ha
  simp only [setItem, hd, bind_apply, get_apply, Heap.get, ho, except_apply, hb, itemChange]
  cases place index items.size with
  | error fault => rfl
  | ok i => exact if_pos (isLive_iff.mpr ⟨o, ho⟩)

theorem slice_of_array (hd : target.toHandle? = some r) (ha : h.array r = .ok items) :
    slice target start stop h = h.withFound (sliceOf items start stop) fun part =>
      ((h.alloc (.array part)).1, .ofHandle (h.alloc (.array part)).2) := by
  have hitems : h.arrayOf? target = some items := by simp only [arrayOf?, hd, ha, Except.toOption]
  simp only [slice, bind_apply, get_apply, hitems, except_apply]
  cases sliceOf items start stop <;> rfl

theorem array_update (f : Array Value → Array Value) (ha : h.array r = .ok items) :
    (h.update r (changeArray f)).array r = .ok (f items) := by
  obtain ⟨⟨marked, members, body⟩, ho, rfl⟩ := array_eq_ok.mp ha
  exact array_eq_ok.mpr ⟨_, by rw [get?_update, if_pos rfl, ho]; rfl, rfl⟩

/-- One item is another afterwards, and nothing else is. -/
theorem array_set {i : Nat} (hi : i < items.size) (ha : h.array r = .ok items) :
    (h.update r (changeArray (·.setIfInBounds i v))).array r = .ok (items.set i v hi) ∧
      ∀ s, s ≠ r → (h.update r (changeArray (·.setIfInBounds i v))).get? s = h.get? s := by
  refine ⟨(array_update _ ha).trans (congrArg _ (dif_pos hi)), fun s hs => ?_⟩
  rw [get?_update, if_neg hs]

theorem array_alloc (hw : h.WellFormed) (hfit : (h.alloc (.array items)).1.slots.size ≤ slotLimit) :
    h.get? (h.alloc (.array items)).2 = none ∧
      (h.alloc (.array items)).1.array (h.alloc (.array items)).2 = .ok items ∧
      h.Remains (h.alloc (.array items)).1 := by
  have hmade := alloc_allocated hw.toArena (.array items) hfit
  exact ⟨hmade.fresh, array_eq_ok.mpr ⟨_, hmade.get?_self, rfl⟩, .alloc hw.toArena _ hfit⟩

theorem text_intern (hw : h.WellFormed) (hfit : (h.intern s).1.slots.size ≤ slotLimit) :
    (h.intern s).1.text (h.intern s).2 = .ok s ∧ h.Remains (h.intern s).1 := by
  have hfind := ((hw.intern hfit).find_text _ _).mp (find_text_intern hw.toArena hfit)
  exact ⟨text_eq_ok.mpr hfind, .intern hw.toArena s hfit⟩

end Heap

namespace Machine

variable {host : HostFunctions} {m m' : Machine} {t : Running} {f : Frame} {rest : List Frame}
  {op : Opcode} {below operands : Array Value} {r : Handle} {items : Array Value} {s : String}
  {target index v start stop : Value}

/-! ## With the operands -/

/-- The running fiber is at an instruction that has its operands on top. The operands are within
the limit, as they are in every machine that has come about. -/
structure AtOperands (op : Opcode) (operands below : Array Value) (f : Frame) (rest : List Frame)
    (t : Running) (m : Machine) : Prop extends AtRow op .nothing f rest t m where
  window : t.fiber.stack.values = below ++ operands
  within : t.fiber.stack.size ≤ t.fiber.stack.limit

/-- The machine when the instruction has put a value in place of its operands. -/
def answered (op : Opcode) (below : Array Value) (f : Frame) (rest : List Frame) (t : Running)
    (m : Machine) (h : Heap) (v : Value) : Machine :=
  ({ m with heap := h } : Machine).withCalls t ⟨below.push v, t.fiber.stack.limit⟩
    (f.skip op.size :: rest)

/-- The instruction succeeds with these outcomes alone, and a failure leaves the heap as it was. -/
structure Decides (host : HostFunctions) (m : Machine) (outcomes : Machine → Prop) : Prop where
  ok_iff : ∀ m', instruction host m = .ok () m' ↔ outcomes m'
  heap_eq : ∀ fault m', instruction host m = .error fault m' → m'.heap = m.heap

theorem AtOperands.size_lt (ha : AtOperands op operands below f rest t m) (hpos : 0 < operands.size) :
    below.size < t.fiber.stack.limit := by
  have hsize := ha.within
  simp only [OperandStack.size, ha.window, Array.size_append] at hsize
  omega

theorem AtOperands.instruction_eq (ha : AtOperands op operands below f rest t m) :
    instruction host m =
      perform host op .nothing (m.withCalls t t.fiber.stack (f.skip op.size :: rest)) := by
  rw [← ha.skip_eq]
  exact instruction_of_row ha.frame? ha.row

/-- Looking for something on the heap first, and then putting a value down. -/
theorem decides_of_found {α β : Type} {e : Except Fault α} {y : Heap.Act β} {g : α → Heap × β}
    {w : β → Value} (hlt : below.size < t.fiber.stack.limit) (hy : y m.heap = m.heap.withFound e g)
    (hinst : instruction host m = ((liftM y : Act β) >>= fun b => push (w b))
      (m.withCalls t ⟨below, t.fiber.stack.limit⟩ (f.skip op.size :: rest))) :
    Decides host m fun m' => ∃ a, e = .ok a ∧
      m' = answered op below f rest t m (g a).1 (w (g a).2) := by
  cases e with
  | ok a =>
    rw [bind_of_ok (lift_withCalls_of_ok hy), push_withCalls hlt] at hinst
    refine ⟨fun m' => ?_, fun fault m' h => ?_⟩
    · rw [hinst]
      constructor
      · intro h
        cases h
        exact ⟨a, rfl, rfl⟩
      · rintro ⟨_, ha, rfl⟩
        cases ha
        rfl
    · cases hinst.symm.trans h
  | error fault =>
    rw [bind_of_error (lift_withCalls_of_error hy)] at hinst
    refine ⟨fun m' => ?_, fun fault' m' h => ?_⟩
    · rw [hinst]
      constructor
      · intro h
        cases h
      · rintro ⟨_, h, -⟩
        cases h
    · cases hinst.symm.trans h
      rfl

theorem Decides.congr {P Q : Machine → Prop} (hd : Decides host m P) (h : ∀ m', P m' ↔ Q m') :
    Decides host m Q where
  ok_iff m' := (hd.ok_iff m').trans (h m')
  heap_eq := hd.heap_eq

section Instructions

variable {α : Type} {e : Except Fault α}

theorem decides_read {g : α → Heap × Value}
    (ha : AtOperands .subscriptRead #[target, index] below f rest t m)
    (hy : Heap.item target index m.heap = m.heap.withFound e g) : Decides host m fun m' =>
      ∃ a, e = .ok a ∧ m' = answered .subscriptRead below f rest t m (g a).1 (g a).2 := by
  refine decides_of_found (w := id) (ha.size_lt (Nat.zero_lt_succ _)) hy ?_
  rw [ha.instruction_eq]
  exact binary_withCalls ha.window _

theorem decides_write {g : α → Heap × Unit}
    (ha : AtOperands .subscriptWrite #[target, index, v] below f rest t m)
    (hy : Heap.setItem target index v m.heap = m.heap.withFound e g) : Decides host m fun m' =>
      ∃ a, e = .ok a ∧ m' = answered .subscriptWrite below f rest t m (g a).1 v := by
  refine decides_of_found (w := fun _ => v) (ha.size_lt (Nat.zero_lt_succ _)) hy ?_
  rw [ha.instruction_eq]
  exact ternary_withCalls ha.window fun target index v => do
    Heap.setItem target index v
    push v

theorem decides_slice {g : α → Heap × Value}
    (ha : AtOperands .sliceArray #[target, start, stop] below f rest t m)
    (hy : Heap.slice target start stop m.heap = m.heap.withFound e g) : Decides host m fun m' =>
      ∃ a, e = .ok a ∧ m' = answered .sliceArray below f rest t m (g a).1 (g a).2 := by
  refine decides_of_found (w := id) (ha.size_lt (Nat.zero_lt_succ _)) hy ?_
  rw [ha.instruction_eq]
  exact ternary_withCalls ha.window fun target start stop => do
    push (← Heap.slice target start stop)

end Instructions

/-! ## Arrays and texts -/

theorem exists_place_iff {n : Nat} (hn : n < 2 ^ 53) {P : Fin n → Prop} :
    (∃ i, Heap.place index n = .ok i ∧ P i) ↔ ∃ i, ∃ hi : i < n, index.Names n i ∧ P ⟨i, hi⟩ := by
  simp only [Heap.place_eq_ok_iff hn]
  exact ⟨fun ⟨i, hi⟩ => ⟨i, i.isLt, hi⟩, fun ⟨i, hlt, hi⟩ => ⟨⟨i, hlt⟩, hi⟩⟩

theorem read_array (ha : AtOperands .subscriptRead #[target, index] below f rest t m)
    (hr : target.toHandle? = some r) (hitems : m.heap.array r = .ok items)
    (hn : items.size < 2 ^ 53) : Decides host m fun m' =>
      ∃ i, ∃ hi : i < items.size, index.Names items.size i ∧
        m' = answered .subscriptRead below f rest t m m.heap items[i] :=
  (decides_read ha (Heap.item_of_array hr hitems)).congr fun _ => exists_place_iff hn

theorem read_text (ha : AtOperands .subscriptRead #[target, index] below f rest t m)
    (hr : target.toHandle? = some r) (hs : m.heap.text r = .ok s) (hn : s.length < 2 ^ 53) :
    Decides host m fun m' =>
      ∃ i, ∃ hi : i < s.toList.length, index.Names s.length i ∧
        m' = answered .subscriptRead below f rest t m
          (m.heap.intern (.singleton s.toList[i])).1
          (.ofHandle (m.heap.intern (.singleton s.toList[i])).2) :=
  (decides_read ha (Heap.item_of_text hr hs)).congr fun _ => exists_place_iff hn

theorem write_array (ha : AtOperands .subscriptWrite #[target, index, v] below f rest t m)
    (hr : target.toHandle? = some r) (hitems : m.heap.array r = .ok items)
    (hn : items.size < 2 ^ 53) : Decides host m fun m' =>
      ∃ i, ∃ _ : i < items.size, index.Names items.size i ∧
        m' = answered .subscriptWrite below f rest t m
          (m.heap.update r (Heap.changeArray (·.setIfInBounds i v))) v :=
  (decides_write ha (Heap.setItem_of_array hr hitems)).congr fun _ => exists_place_iff hn

theorem slice_array (ha : AtOperands .sliceArray #[target, start, stop] below f rest t m)
    (hr : target.toHandle? = some r) (hitems : m.heap.array r = .ok items)
    (hn : items.size < 2 ^ 53) : Decides host m fun m' =>
      ∃ first last, start.Bounds items.size first ∧ stop.Bounds items.size last ∧ first ≤ last ∧
        m' = answered .sliceArray below f rest t m
          (m.heap.alloc (.array (items.extract first last))).1
          (.ofHandle (m.heap.alloc (.array (items.extract first last))).2) := by
  refine (decides_slice ha (Heap.slice_of_array hr hitems)).congr fun m' => ?_
  simp only [Heap.sliceOf_eq_ok_iff hn]
  constructor
  · rintro ⟨part, ⟨first, last, hfirst, hlast, hle, rfl⟩, rfl⟩
    exact ⟨first, last, hfirst, hlast, hle, rfl⟩
  · rintro ⟨first, last, hfirst, hlast, hle, rfl⟩
    exact ⟨_, ⟨first, last, hfirst, hlast, hle, rfl⟩, rfl⟩

/-! ## What is guaranteed -/

/-- What subscripts and slices do, whatever value an index or a bound is. A place is named by a
whole number that is at least minus the number of items and less than it, and by nothing else. -/
structure SubscriptGuarantees (host : HostFunctions) : Prop where
  names_iff : ∀ {v : Value} {n : Nat}, (∃ i, v.Names n i) ↔ ∃ k, v.Whole k ∧ -(n : ℤ) ≤ k ∧ k < n
  names_unique : ∀ {v : Value} {n i j : Nat}, v.Names n i → v.Names n j → i = j
  read : ∀ {m t f rest below target index r items},
    AtOperands .subscriptRead #[target, index] below f rest t m → target.toHandle? = some r →
    m.heap.array r = .ok items → items.size < 2 ^ 53 → Decides host m fun m' =>
      ∃ i, ∃ hi : i < items.size, index.Names items.size i ∧
        m' = answered .subscriptRead below f rest t m m.heap items[i]
  write : ∀ {m t f rest below target index v r items},
    AtOperands .subscriptWrite #[target, index, v] below f rest t m → target.toHandle? = some r →
    m.heap.array r = .ok items → items.size < 2 ^ 53 → Decides host m fun m' =>
      ∃ i, ∃ _ : i < items.size, index.Names items.size i ∧
        m' = answered .subscriptWrite below f rest t m
          (m.heap.update r (Heap.changeArray (·.setIfInBounds i v))) v
  written : ∀ {h : Heap} {r items i v} (hi : i < items.size), h.array r = .ok items →
    (h.update r (Heap.changeArray (·.setIfInBounds i v))).array r = .ok (items.set i v hi) ∧
      ∀ s, s ≠ r → (h.update r (Heap.changeArray (·.setIfInBounds i v))).get? s = h.get? s
  slice : ∀ {m t f rest below target start stop r items},
    AtOperands .sliceArray #[target, start, stop] below f rest t m → target.toHandle? = some r →
    m.heap.array r = .ok items → items.size < 2 ^ 53 → Decides host m fun m' =>
      ∃ first last, start.Bounds items.size first ∧ stop.Bounds items.size last ∧ first ≤ last ∧
        m' = answered .sliceArray below f rest t m
          (m.heap.alloc (.array (items.extract first last))).1
          (.ofHandle (m.heap.alloc (.array (items.extract first last))).2)
  sliced : ∀ {h : Heap} {items : Array Value}, h.WellFormed →
    (h.alloc (.array items)).1.slots.size ≤ Heap.slotLimit →
    h.get? (h.alloc (.array items)).2 = none ∧
      (h.alloc (.array items)).1.array (h.alloc (.array items)).2 = .ok items ∧
      h.Remains (h.alloc (.array items)).1
  character : ∀ {m t f rest below target index r s},
    AtOperands .subscriptRead #[target, index] below f rest t m → target.toHandle? = some r →
    m.heap.text r = .ok s → s.length < 2 ^ 53 → Decides host m fun m' =>
      ∃ i, ∃ hi : i < s.toList.length, index.Names s.length i ∧
        m' = answered .subscriptRead below f rest t m
          (m.heap.intern (.singleton s.toList[i])).1
          (.ofHandle (m.heap.intern (.singleton s.toList[i])).2)
  interned : ∀ {h : Heap} {s : String}, h.WellFormed → (h.intern s).1.slots.size ≤ Heap.slotLimit →
    (h.intern s).1.text (h.intern s).2 = .ok s ∧ h.Remains (h.intern s).1

theorem subscriptGuarantees (host : HostFunctions) : SubscriptGuarantees host where
  names_iff := Value.exists_names_iff
  names_unique := Value.Names.unique
  read := read_array
  write := write_array
  written hi hitems := Heap.array_set hi hitems
  slice := slice_array
  sliced := Heap.array_alloc
  character := read_text
  interned := Heap.text_intern

/-- A program that reads the last item of a list of two. -/
def backwards : Prototype where
  name := "script"
  arity := 0
  isAsync := false
  code := #[Opcode.pushTrue.toByte, Opcode.pushFalse.toByte, Opcode.createList.toByte, 0, 2,
    Opcode.constant.toByte, 0, Opcode.subscriptRead.toByte, Opcode.ret.toByte]
  constants := [.number (-1)]
  lines := #[]

/-- One place before the start is the last item. -/
theorem subscriptGuarantees_probe : SubscriptGuarantees Probe.host ∧
    ∃ target r below f rest t,
      AtOperands .subscriptRead #[target, .ofFloat (-1)] below f rest t (executing backwards 4) ∧
      target.toHandle? = some r ∧
      (executing backwards 4).heap.array r = .ok #[.ofBool true, .ofBool false] ∧
      instruction Probe.host (executing backwards 4) = .ok () (answered .subscriptRead below f rest
        t (executing backwards 4) (executing backwards 4).heap (.ofBool false)) := by
  have hg : SubscriptGuarantees Probe.host := subscriptGuarantees Probe.host
  have hrow : (executing backwards 4).frame?.map (fun f => Listing.rowAt f.chunk.code f.ip) =
    some (.instruction .subscriptRead .nothing) := by decide +kernel
  obtain ⟨f, hf, hrow⟩ := Option.map_eq_some_iff.mp hrow
  obtain ⟨t, rest, ht, hframes⟩ := exists_running_of_frame? hf
  let values := (executing backwards 4).running.elim #[] (·.fiber.stack.values)
  let target := values.getD 1 .nil
  let r := target.toHandle?.getD ⟨0, .zero⟩
  have hwindow : values = #[values.getD 0 .nil] ++ #[target, .ofFloat (-1)] := by decide +kernel
  have hfits : (executing backwards 4).running.all
    (fun t => t.fiber.stack.size ≤ t.fiber.stack.limit) = true := by decide +kernel
  have hr : target.toHandle? = some r := by decide +kernel
  have hitems : (executing backwards 4).heap.array r = .ok #[.ofBool true, .ofBool false] := by
    decide +kernel
  have hnames : (Value.ofFloat (-1)).Names 2 1 :=
    ⟨-1, ⟨-1, by decide, Double.toInt?_eq_some_iff.mp (by decide)⟩, by decide, by decide, rfl⟩
  simp only [ht, Option.all_some, decide_eq_true_eq] at hfits
  have hvalues : values = t.fiber.stack.values := by simp only [values, ht, Option.elim_some]
  have hat : AtOperands .subscriptRead #[target, .ofFloat (-1)] #[values.getD 0 .nil] f rest t
      (executing backwards 4) := ⟨⟨ht, hframes, hrow⟩, hvalues.symm.trans hwindow, hfits⟩
  have hread := hg.read hat hr hitems (by decide)
  refine ⟨hg, target, r, _, f, rest, t, hat, hr, hitems, (hread.ok_iff _).mpr ?_⟩
  exact ⟨1, by decide, hnames, rfl⟩

end Machine

end FiberMachine
