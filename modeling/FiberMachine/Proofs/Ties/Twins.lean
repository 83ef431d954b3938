import FiberMachine.Proofs.Ties.Embedding

/-!
# Collections cannot be seen

Two machines that differ in how they collect garbage and that a host treats alike hold the
same objects, each under handles of its own, after any number of steps, whatever their heaps
count and whenever they collect. So their programs end alike, with the same fault and the same
calls in the backtrace if they fail, and print the same; and what globals hold looks the same.
-/

namespace FiberMachine

open Ties

namespace Machine

/-- Two machines side by side. -/
def both (m n : Machine) (second : Bool) : Machine := if second then n else m

/-- Two machines hold the same, garbage apart: their live handles are tied one to one, tied
objects have tied contents, and all that is no handle is equal. -/
def Correspond (m n : Machine) : Prop := ∃ T : Ties Bool, T.Machines (both m n)

variable {host : HostFunctions} {m n : Machine}

/-- Two machines that were treated alike, but for when they collect. -/
inductive Twins (host : HostFunctions) : Machine → Machine → Prop
  | new {c d : Config} : c.habits = d.habits → Twins host (new c) (new d)
  | withHost {m n : Machine} (h : Host) : Twins host m n → Twins host (m.withHost h) (n.withHost h)
  | addFunction {m n : Machine} (f : Native) : Twins host m n →
      Twins host (after (addFunction f) m) (after (addFunction f) n)
  | addClass {m n : Machine} (name : String) (methods : List Native) : Twins host m n →
      Twins host (after (addClass name methods) m) (after (addClass name methods) n)
  | addModule {m n : Machine} (name : String) (module : NativeModule) : Twins host m n →
      Twins host (m.addModule name module) (n.addModule name module)
  | advance {m n : Machine} (d : Duration) : Twins host m n → Twins host (m.advance d) (n.advance d)
  | keepBooks {m n : Machine} (first second : Option Heap.Books) : Twins host m n →
      Twins host (m.kept first) (n.kept second)
  | interpret {m n : Machine} (first second : Regime) (steps : Nat) (p : Prototype) :
      Twins host m n →
      Twins host (m.interpretOn host first steps p).2 (n.interpretOn host second steps p).2

theorem both_map (f : Machine → Machine) (m n : Machine) :
    (fun b => f (both m n b)) = both (f m) (f n) := by
  funext b
  cases b <;> rfl

/-! ## Corresponding machines -/

/-- What the same action, one that agrees, makes of corresponding machines. -/
theorem Correspond.after {α : Type} {x : Act α} {G : Ties Bool → (Bool → α) → Prop}
    (h : Correspond m n)
    (hx : ∀ T : Ties Bool, T.Machines (both m n) → Agree (both m n) (fun _ => x) (Anyhow G))
    (hm : (FiberMachine.after x m).room ≤ Heap.slotLimit)
    (hn : (FiberMachine.after x n).room ≤ Heap.slotLimit) :
    Correspond (FiberMachine.after x m) (FiberMachine.after x n) := by
  obtain ⟨T, hT⟩ := h
  have hfit : ∀ b, (FiberMachine.after x (both m n b)).room ≤ Heap.slotLimit := by
    intro b
    cases b
    · exact hm
    · exact hn
  rw [Correspond, ← both_map]
  rcases hx T hT hfit with ⟨T', a, m', hm', -, hok⟩ | ⟨T', e, m', hm', -, -, herr⟩
  · have heq : (fun b => FiberMachine.after x (both m n b)) = m' :=
      funext fun b => after_ok (hok b)
    exact ⟨T', heq ▸ hm'⟩
  · have heq : (fun b => FiberMachine.after x (both m n b)) = m' :=
      funext fun b => after_error (herr b)
    exact ⟨T', heq ▸ hm'⟩

/-- The same program ends alike on corresponding machines, which correspond afterwards. -/
theorem Correspond.interpret (hh : host.Agrees Bool) (h : Correspond m n)
    (first second : Regime) (steps : Nat) (p : Prototype)
    (hm : (m.interpretOn host first steps p).2.room ≤ Heap.slotLimit)
    (hn : (n.interpretOn host second steps p).2.room ≤ Heap.slotLimit) :
    (m.interpretOn host first steps p).1 = (n.interpretOn host second steps p).1 ∧
      Correspond (m.interpretOn host first steps p).2 (n.interpretOn host second steps p).2 := by
  obtain ⟨T, hT⟩ := h
  let regime (b : Bool) : Regime := if b then second else first
  have hfit : ∀ b, ((both m n b).interpretOn host (regime b) steps p).2.room ≤
      Heap.slotLimit := by
    intro b
    cases b
    · exact hm
    · exact hn
  obtain ⟨T', outcome, m', hm', -, heq⟩ := interpretOn_tied hh hT regime steps p hfit
  have hfirst : m.interpretOn host first steps p = (outcome, m' false) := heq false
  have hsecond : n.interpretOn host second steps p = (outcome, m' true) := heq true
  rw [hfirst, hsecond]
  refine ⟨rfl, T', ?_⟩
  have hboth : both (m' false) (m' true) = m' := by
    funext b
    cases b <;> rfl
  rwa [hboth]

/-- Corresponding machines look alike from outside. -/
theorem Correspond.display_global (h : Correspond m n) (name : String) :
    (m.global? name).map m.display = (n.global? name).map n.display := by
  obtain ⟨T, hT⟩ := h
  have hsame : Same fun b => ((both m n b).global? name).map (both m n b).display := by
    rcases (global?_tied hT name).cases with hnone | ⟨v, hv, hsome⟩
    · simp only [hnone]
      exact .const none
    · simp only [hsome, Option.map_some]
      exact (hT.heap.display hv).map some
  exact hsame.eq false true

theorem Correspond.host_eq (h : Correspond m n) : m.host = n.host := by
  obtain ⟨T, hT⟩ := h
  exact hT.outside.host.eq false true

theorem Correspond.now_eq (h : Correspond m n) : m.timers.now = n.timers.now := by
  obtain ⟨T, hT⟩ := h
  exact hT.outside.timers.now.eq false true

theorem Correspond.exported_eq (h : Correspond m n) : m.exported = n.exported := by
  obtain ⟨T, hT⟩ := h
  exact hT.outside.exported.eq false true

theorem Correspond.backtrace_eq (h : Correspond m n) : m.backtrace = n.backtrace := by
  obtain ⟨T, hT⟩ := h
  exact (same_backtrace hT).eq false true

theorem Correspond.kept (h : Correspond m n) (first second : Option Heap.Books) :
    Correspond (m.kept first) (n.kept second) := by
  obtain ⟨T, hT⟩ := h
  suffices hsheds : ∀ b, Sheds (both m n b) (both (m.kept first) (n.kept second) b) from
    ⟨_, tied_sheds hT hsheds⟩
  intro b
  have hw := hT.heap.wellFormed b
  cases b with
  | false => exact sheds_kept hw first
  | true => exact sheds_kept hw second

/-! ## Twins -/

theorem Twins.correspond (hh : host.Agrees Bool) (h : Twins host m n)
    (hm : m.room ≤ Heap.slotLimit) (hn : n.room ≤ Heap.slotLimit) : Correspond m n := by
  have := hh.tends
  induction h with
  | @new c d hcd =>
    have hhabits : Same fun b : Bool => (if b then d else c).habits := by
      refine ⟨c.habits, fun b => ?_⟩
      cases b
      · rfl
      · exact hcd.symm
    have hfit : ∀ b : Bool, (Machine.new (if b then d else c)).room ≤ Heap.slotLimit := by
      intro b
      cases b
      · exact hm
      · exact hn
    obtain ⟨T, hT⟩ := tied_new hhabits hfit
    have hboth : (fun b : Bool => Machine.new (if b then d else c)) =
        both (Machine.new c) (Machine.new d) := by
      funext b
      cases b <;> rfl
    exact ⟨T, hboth ▸ hT⟩
  | withHost h _ ih => exact (ih hm hn).after (fun _ hT => (agree_withHost hT h).loose) hm hn
  | addModule name module _ ih =>
    exact (ih hm hn).after (fun _ hT => (agree_addModule hT name module).loose) hm hn
  | advance d _ ih => exact (ih hm hn).after (fun _ hT => (agree_advance hT d).loose) hm hn
  | @addFunction m n f _ ih =>
    refine (ih ?_ ?_).after (fun _ hT => (agree_addFunction hT f).anyhow) hm hn
    · exact Nat.le_trans (room_le_after (Machine.addFunction f) m) hm
    · exact Nat.le_trans (room_le_after (Machine.addFunction f) n) hn
  | @addClass m n name methods _ ih =>
    refine (ih ?_ ?_).after (fun _ hT => (agree_addClass hT name methods).anyhow) hm hn
    · exact Nat.le_trans (room_le_after (Machine.addClass name methods) m) hm
    · exact Nat.le_trans (room_le_after (Machine.addClass name methods) n) hn
  | keepBooks first second _ ih =>
    rw [room_kept] at hm hn
    exact (ih hm hn).kept first second
  | @interpret m n first second steps p _ ih =>
    refine ((ih ?_ ?_).interpret hh first second steps p hm hn).2
    · exact Nat.le_trans (room_le_interpretOn m first steps p) hm
    · exact Nat.le_trans (room_le_interpretOn n second steps p) hn

/-- What cannot be told from outside, as long as the slots of the heaps can be told apart:
twins correspond, before a program, after any number of its steps and at its end, whatever
regimes they have; it ends alike on both; and machines that correspond have printed the same,
show the same time, have exported the same names and hold globals with the same texts. -/
structure CollectionsUnseen (host : HostFunctions) : Prop where
  correspond : ∀ {m n}, Twins host m n → m.room ≤ Heap.slotLimit → n.room ≤ Heap.slotLimit →
    Correspond m n
  interpret : ∀ {m n}, Twins host m n → ∀ first second steps p,
    (m.interpretOn host first steps p).2.room ≤ Heap.slotLimit →
    (n.interpretOn host second steps p).2.room ≤ Heap.slotLimit →
      (m.interpretOn host first steps p).1 = (n.interpretOn host second steps p).1 ∧
        Correspond (m.interpretOn host first steps p).2 (n.interpretOn host second steps p).2
  own : ∀ (m : Machine) steps p, m.interpretOn host (fun _ => .own) steps p = m.interpret host steps p
  output : ∀ {m n}, Correspond m n → m.host.output = n.host.output
  now : ∀ {m n}, Correspond m n → m.timers.now = n.timers.now
  exported : ∀ {m n}, Correspond m n → m.exported = n.exported
  globals : ∀ {m n}, Correspond m n → ∀ name,
    (m.global? name).map m.display = (n.global? name).map n.display

theorem collectionsUnseen (hh : host.Agrees Bool) : CollectionsUnseen host where
  correspond h hm hn := h.correspond hh hm hn
  interpret {m n} h first second steps p hm hn := by
    have := hh.tends
    refine (h.correspond hh ?_ ?_).interpret hh first second steps p hm hn
    · exact Nat.le_trans (room_le_interpretOn m first steps p) hm
    · exact Nat.le_trans (room_le_interpretOn n second steps p) hn
  own m steps p := interpretOn_own steps p m
  output h := congrArg Host.output h.host_eq
  now h := h.now_eq
  exported h := h.exported_eq
  globals h name := h.display_global name

/-- A program that exports a list in a list. -/
def listKeeper : Prototype where
  name := "script"
  arity := 0
  isAsync := false
  code := #[
    Opcode.pushNil.toByte, Opcode.createList.toByte, 0, 1, Opcode.createList.toByte, 0, 1,
    Opcode.exportGlobal.toByte, 0, 0, Opcode.pushNil.toByte, Opcode.ret.toByte]
  constants := [.text "kept"]
  lines := #[]

/-- At the third step the heap is told that it is full before the safe point. -/
def onceFull : Regime := fun i =>
  if i = 2 then ⟨some ⟨false, 1, 0, true⟩, none⟩ else .own

/-- One machine keeps its own books and never collects here, one collects before every
instruction, and one does so at the third step only, when its heap has been told that it is
full. -/
theorem collectionsUnseen_listKeeper :
    CollectionsUnseen Probe.host ∧
      ((new {}).interpret Probe.host 9 listKeeper).1 =
        ((new { collectAlways := true }).interpret Probe.host 9 listKeeper).1 ∧
      ((new {}).interpret Probe.host 9 listKeeper).1 =
        ((new {}).interpretOn Probe.host onceFull 9 listKeeper).1 := by
  have hall := collectionsUnseen (Probe.agrees_host (ι := Bool))
  have htwins : Twins Probe.host (new {}) (new { collectAlways := true }) := .new rfl
  have hsame : Twins Probe.host (new {}) (new {}) := .new rfl
  have hown : ∀ c : Config, (new c).interpretOn Probe.host (fun _ => .own) 9 listKeeper =
      (new c).interpret Probe.host 9 listKeeper := fun c => hall.own (new c) 9 listKeeper
  have hfirst : ((new {}).interpret Probe.host 9 listKeeper).2.room ≤ Heap.slotLimit := by
    decide +kernel
  have hsecond : ((new { collectAlways := true }).interpret Probe.host 9 listKeeper).2.room ≤
      Heap.slotLimit := by
    decide +kernel
  have hthird : ((new {}).interpretOn Probe.host onceFull 9 listKeeper).2.room ≤
      Heap.slotLimit := by
    decide +kernel
  rw [← hown] at hfirst hsecond
  rw [← hown {}, ← hown { collectAlways := true }]
  exact ⟨hall, (hall.interpret htwins _ _ 9 listKeeper hfirst hsecond).1,
    (hall.interpret hsame _ _ 9 listKeeper hfirst hthird).1⟩

end Machine
end FiberMachine
