import FiberMachine.Proofs.Ties.Programs

/-!
# Collections at any time

When a machine collects depends on what its heap counts, and fibers count with the frames and
operands that they have just then. A regime settles all this from outside: before every safe
point and before every instruction it may collect, and it may put any numbers into the books of
the heap. Tied machines go through a program alike, each under a regime of its own.
-/

namespace FiberMachine

/-- What is done about garbage at one moment: whether it is collected, and what the heap has
counted afterwards. -/
structure Heap.Books where
  collects : Bool
  bytes : UInt64
  threshold : UInt64
  pending : Bool

/-- Puts the numbers into a heap. -/
def Heap.Books.write (b : Books) (h : Heap) : Heap :=
  { h with bytes := b.bytes, threshold := b.threshold, pending := b.pending }

/-- What is done before the safe point of a step and before its instruction. Where nothing is
said the machine keeps its own books. -/
structure Pace where
  safePoint : Option Heap.Books
  instruction : Option Heap.Books

/-- The machine keeps its own books. -/
def Pace.own : Pace := ⟨none, none⟩

/-- The pace of each step. -/
abbrev Regime := Nat → Pace

open Ties

namespace Machine

variable {ι : Type} {T : Ties ι} {m : ι → Machine} {host : HostFunctions}

/-! ## Books -/

def keepBooks : Option Heap.Books → Act Unit
  | none => pure ()
  | some b => do
    if b.collects then discard collect
    modify fun m => { m with heap := b.write m.heap }

/-- The machine after its books have been kept. -/
def kept (m : Machine) : Option Heap.Books → Machine
  | none => m
  | some b =>
    let m := if b.collects then m.collected else m
    { m with heap := b.write m.heap }

theorem keepBooks_apply (b : Option Heap.Books) (m : Machine) :
    keepBooks b m = .ok () (m.kept b) := by
  cases b with
  | none => rfl
  | some b =>
    simp only [keepBooks, kept]
    cases b.collects
    · rfl
    · simp only [↓reduceIte, discard_eq_bind, bind_apply, collect_apply, pure_apply]
      rfl

theorem wellFormed_write {h : Heap} (hw : h.WellFormed) (b : Heap.Books) :
    (b.write h).WellFormed where
  size_le := hw.size_le
  free_nodup := hw.free_nodup
  mem_free := hw.mem_free
  count_eq := hw.count_eq
  unmarked := hw.unmarked
  find_text := hw.find_text

theorem Sheds.write {m m' : Machine} (hs : Sheds m m') (b : Heap.Books) :
    Sheds m { m' with heap := b.write m'.heap } where
  outside := by rw [hs.outside]
  wellFormed := wellFormed_write hs.wellFormed b
  old := hs.old
  references := hs.references
  roots := hs.roots

/-- Keeping books sheds garbage at most. -/
theorem sheds_kept {m : Machine} (hw : m.heap.WellFormed) (b : Option Heap.Books) :
    Sheds m (m.kept b) := by
  cases b with
  | none => exact sheds_refl hw
  | some b =>
    simp only [kept]
    split
    · exact (sheds_collected hw).write b
    · exact (sheds_refl hw).write b

theorem room_kept (m : Machine) (b : Option Heap.Books) : (m.kept b).room = m.room := by
  cases b with
  | none => rfl
  | some b =>
    simp only [kept]
    split
    · exact room_collected m
    · rfl

instance (b : Option Heap.Books) : Makes Tends (keepBooks b) := by
  refine .single fun m => ?_
  rw [after_ok (keepBooks_apply b m)]
  exact ⟨Nat.le_of_eq (room_kept m b).symm, fun hw _ => (sheds_kept hw b).wellFormed⟩

theorem agree_keepBooks (hm : T.Machines m) (b : ι → Option Heap.Books) :
    Agree m (fun i => keepBooks (b i)) (Anyhow fun _ _ => True) :=
  agree_ok (a := fun _ => ()) (tied_sheds hm fun i => sheds_kept (hm.heap.wellFormed i) (b i))
    trivial fun i => keepBooks_apply (b i) (m i)

/-! ## Steps -/

def stepOn (host : HostFunctions) (p : Pace) : Act Bool := do
  keepBooks p.safePoint
  if ← safePoint then
    keepBooks p.instruction
    instruction host
    return true
  else return false

/-- Takes steps, each at its own pace. -/
def runOn (host : HostFunctions) (s : Regime) : Nat → Act Bool
  | 0 => return false
  | steps + 1 => do
    if ← stepOn host (s 0) then runOn host (fun i => s (i + 1)) steps else return true

def interpretOn (host : HostFunctions) (s : Regime) (steps : Nat) (p : Prototype)
    (m : Machine) : Outcome × Machine :=
  settle ((do start p; runOn host s steps : Act Bool) m)

theorem stepOn_own : stepOn host .own = step host := rfl

theorem runOn_own (steps : Nat) : runOn host (fun _ => .own) steps = run host steps := by
  induction steps with
  | zero => rfl
  | succ steps ih => simp only [runOn, run, stepOn_own, ih]

/-- A machine that keeps its own books all the time does what it does by itself. -/
theorem interpretOn_own (steps : Nat) (p : Prototype) (m : Machine) :
    m.interpretOn host (fun _ => .own) steps p = m.interpret host steps p := by
  rw [interpretOn, interpret, runOn_own]

section

variable [∀ id args, Makes Tends (host.call id args)]

instance (p : Pace) : Makes Tends (stepOn host p) := by
  unfold stepOn
  exact .parts

theorem tends_runOn (s : Regime) (steps : Nat) : Makes Tends (runOn host s steps) := by
  induction steps generalizing s with
  | zero => exact .pure _
  | succ steps ih =>
    have hrest := ih fun i => s (i + 1)
    unfold runOn
    exact .parts

theorem room_le_interpretOn (m : Machine) (s : Regime) (steps : Nat) (p : Prototype) :
    m.room ≤ (m.interpretOn host s steps p).2.room := by
  have := @tends_runOn host _ s steps
  have hall : Makes Tends (start p >>= fun _ => runOn host s steps) :=
    .bind inferInstance fun _ => inferInstance
  exact Nat.le_trans (room_le_after (start p >>= fun _ => runOn host s steps) m)
    (Nat.le_of_eq (room_settle _ m).symm)

end

/-! ## Steps side by side -/

variable [Inhabited ι]

theorem agree_stepOn (hh : host.Agrees ι) (hm : T.Machines m) (p : ι → Pace) :
    Agree m (fun i => stepOn host (p i)) (Anyhow fun _ => Same) := by
  have := hh.tends
  refine (agree_keepBooks hm _).after fun T₁ _ m₁ hm₁ _ => ?_
  refine (agree_safePoint hm₁).after fun T₂ found m₂ hm₂ hfound => ?_
  obtain ⟨found, hfound⟩ := hfound
  simp only [hfound]
  cases found with
  | true =>
    refine (agree_keepBooks hm₂ _).after fun T₃ _ m₃ hm₃ _ => ?_
    exact (agree_instruction hh hm₃).after fun _ _ _ hm₄ _ => agree_pure hm₄ (.const true)
  | false => exact agree_pure hm₂ (.const false)

theorem agree_runOn (hh : host.Agrees ι) (hm : T.Machines m) (s : ι → Regime) (steps : Nat) :
    Agree m (fun i => runOn host (s i) steps) (Anyhow fun _ => Same) := by
  have := hh.tends
  induction steps generalizing T m s with
  | zero => exact agree_pure hm (.const false)
  | succ steps ih =>
    refine (agree_stepOn hh hm fun i => s i 0).afterBy (fun i a => ?_)
      fun T₁ went m₁ hm₁ hwent => ?_
    · have := @tends_runOn host _ (fun j => s i (j + 1)) steps
      infer_instance
    · obtain ⟨went, hwent⟩ := hwent
      simp only [hwent]
      cases went with
      | true => exact ih hm₁ fun i j => s i (j + 1)
      | false => exact agree_pure hm₁ (.const true)

/-- Running a program on tied machines, each under its own regime. -/
theorem interpretOn_tied (hh : host.Agrees ι) (hm : T.Machines m) (s : ι → Regime)
    (steps : Nat) (p : Prototype)
    (hfit : ∀ i, ((m i).interpretOn host (s i) steps p).2.room ≤ Heap.slotLimit) :
    ∃ (T' : Ties ι) (outcome : Outcome) (m' : ι → Machine), T'.Machines m' ∧
      (∀ trace, outcome ≠ .halted (.faulted .dangling trace)) ∧
      ∀ i, (m i).interpretOn host (s i) steps p = (outcome, m' i) := by
  have hall : Agree m (fun i => start p >>= fun _ => runOn host (s i) steps)
      (Anyhow fun _ => Same) :=
    (agree_start hm p).anyhow.afterBy (fun i _ => by
      have := hh.tends
      have := @tends_runOn host _ (s i) steps
      infer_instance) fun _ _ _ hm₁ _ => agree_runOn hh hm₁ s steps
  exact settle_tied hall hfit

/-- Running a program on tied machines that keep their own books. -/
theorem interpret_tied (hh : host.Agrees ι) (hm : T.Machines m) (steps : Nat) (p : Prototype)
    (hfit : ∀ i, ((m i).interpret host steps p).2.room ≤ Heap.slotLimit) :
    ∃ (T' : Ties ι) (outcome : Outcome) (m' : ι → Machine), T'.Machines m' ∧
      (∀ trace, outcome ≠ .halted (.faulted .dangling trace)) ∧
      ∀ i, (m i).interpret host steps p = (outcome, m' i) := by
  simp only [← interpretOn_own] at hfit ⊢
  exact interpretOn_tied hh hm (fun _ _ => .own) steps p hfit

end Machine
end FiberMachine
