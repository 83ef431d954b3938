import FiberMachine.Machine.Embedding
import FiberMachine.Proofs.Object.Spans
import FiberMachine.Proofs.Machine.Windows

/-!
# Loops over spans

A loop keeps three operands: its variable, the sequence, and a cursor that is nil at first. Each
time it comes to its instruction, the next item goes into the variable and the cursor moves on, or
the loop is left. Over a span that is the same as writing the values of the span out, as long as
they are not lost, whatever the code between two turns does to the rest of the machine.
-/

namespace FiberMachine

open Listing (Shown rowAt)

namespace OperandStack

variable {s : OperandStack} {below : Array Value} {a b c : Value}

theorem peek_zero_of_values (h : s.values = below ++ #[a, b, c]) : s.peek 0 = .ok c := by
  rw [peek_of_lt (by simp [h])]
  simp [h]

theorem peek_one_of_values (h : s.values = below ++ #[a, b, c]) : s.peek 1 = .ok b := by
  rw [peek_of_lt (by simp [h])]
  simp [h]

theorem poke_two_of_values (h : s.values = below ++ #[a, b, c]) (v : Value) :
    s.poke 2 v = .ok ⟨below ++ #[v, b, c], s.limit⟩ := by
  rw [poke_of_lt (by simp [h])]
  simp [h]

theorem poke_zero_of_values (h : s.values = below ++ #[a, b, c]) (v : Value) :
    s.poke 0 v = .ok ⟨below ++ #[a, b, v], s.limit⟩ := by
  rw [poke_of_lt (by simp [h])]
  simp [h]

end OperandStack

namespace Machine

variable {host : HostFunctions} {m m' : Machine} {t : Running} {f : Frame} {rest : List Frame}
  {below : Array Value} {held sequence cursor item next : Value} {distance target : Nat}

/-! ## One turn -/

/-- The running fiber is at the instruction of a loop over a sequence, and the loop has
operands below its three own ones. Leaving goes somewhere else in the code than going on. -/
structure AtLoop (sequence : Value) (below : Array Value) (held cursor : Value) (distance target : Nat)
    (f : Frame) (rest : List Frame) (t : Running) (m : Machine) : Prop extends
    AtRow .iterate (.jump distance target) f rest t m where
  window : t.fiber.stack.values = below ++ #[held, sequence, cursor]
  inside : target ≤ f.chunk.code.size
  apart : distance ≠ 0

/-- The machine when a turn has put an item into the loop variable and moved the cursor on. -/
def afterItem (sequence : Value) (below : Array Value) (item next : Value) (f : Frame)
    (rest : List Frame) (t : Running) (m : Machine) : Machine :=
  m.withCalls t ⟨below ++ #[item, sequence, next], t.fiber.stack.limit⟩
    (f.skip Opcode.iterate.size :: rest)

/-- The machine when the loop has been left: nothing but the place in the code is another. -/
def afterExit (target : Nat) (f : Frame) (rest : List Frame) (t : Running) (m : Machine) :
    Machine :=
  m.withCalls t t.fiber.stack ({ f with ip := target } :: rest)

theorem target_eq (ha : AtLoop sequence below held cursor distance target f rest t m) :
    target = f.ip + Opcode.iterate.size + distance := by
  have hshown := (Listing.within_of_rowAt ha.row).2
  simp only [Listing.shownAt, Opcode.layout, Shown.jump.injEq] at hshown
  rw [hshown.2, hshown.1]
  rfl

theorem instruction_at_loop (ha : AtLoop sequence below held cursor distance target f rest t m) :
    instruction host m = leaveLoop distance (m.skip Opcode.iterate.size) :=
  instruction_of_row ha.frame? ha.row

variable {stack : OperandStack} {frames : List Frame} {v : Value}

theorem store_withCalls {b c : Value} (h : stack.values = below ++ #[v, b, c]) :
    (do poke 2 item; poke 0 next : Act Unit) (m.withCalls t stack frames) =
      .ok () (m.withCalls t ⟨below ++ #[item, b, next], stack.limit⟩ frames) := by
  have hitem := OperandStack.poke_two_of_values h item
  generalize hs : OperandStack.mk (below ++ #[item, b, c]) stack.limit = s at hitem
  have hvalues : s.values = below ++ #[item, b, c] := by rw [← hs]
  have hlimit : s.limit = stack.limit := by rw [← hs]
  have hcursor := OperandStack.poke_zero_of_values hvalues next
  rw [hlimit] at hcursor
  simp only [bind_apply, poke_withCalls hitem, poke_withCalls hcursor]

theorem jumpForward_withCalls (hin : f.ip + distance ≤ f.chunk.code.size) :
    jumpForward distance (m.withCalls t stack (f :: rest)) =
      .ok () (m.withCalls t stack ({ f with ip := f.ip + distance } :: rest)) := by
  simp only [jumpForward, jumpTo, bind_apply, frame, fiber, withCalls, pure_apply, hin, ↓reduceIte,
    changeFiber, List.tail_cons]

/-- A turn reads the sequence and the cursor before it asks for the item. -/
theorem instruction_eq_leaving (ha : AtLoop sequence below held cursor distance target f rest t m)
    {result : EStateM.Result Fault Machine Unit}
    (h : ∀ m₁, m₁ = m.withCalls t t.fiber.stack (f.skip Opcode.iterate.size :: rest) →
      m₁.heap = m.heap →
      ((liftM (m₁.heap.nextItem sequence cursor) : Act _) >>= fun
        | some (item, next) => do
          poke 2 item
          poke 0 next
        | none => jumpForward distance) m₁ = result) :
    instruction host m = result := by
  have hsequence := peek_withCalls m t (f.skip Opcode.iterate.size :: rest)
    (OperandStack.peek_one_of_values ha.window)
  have hcursor := peek_withCalls m t (f.skip Opcode.iterate.size :: rest)
    (OperandStack.peek_zero_of_values ha.window)
  rw [instruction_at_loop ha, ha.toAtRow.skip_eq]
  unfold leaveLoop
  refine (bind_of_ok hsequence).trans ?_
  refine (bind_of_ok hcursor).trans ?_
  refine (bind_of_ok (get_apply _)).trans ?_
  exact h _ rfl rfl

theorem turn_item (ha : AtLoop sequence below held cursor distance target f rest t m)
    (hnext : m.heap.nextItem sequence cursor = .ok (some (item, next))) :
    instruction host m = .ok () (afterItem sequence below item next f rest t m) := by
  apply instruction_eq_leaving ha
  intro m₁ hm₁ hheap
  rw [← hheap] at hnext
  refine (bind_of_ok (liftM_of_ok hnext)).trans ?_
  rw [hm₁]
  exact store_withCalls ha.window

theorem turn_exit (ha : AtLoop sequence below held cursor distance target f rest t m)
    (hnext : m.heap.nextItem sequence cursor = .ok none) :
    instruction host m = .ok () (afterExit target f rest t m) := by
  have hin : (f.skip Opcode.iterate.size).ip + distance ≤ f.chunk.code.size := by
    rw [Frame.skip, ← target_eq ha]
    exact ha.inside
  apply instruction_eq_leaving ha
  intro m₁ hm₁ hheap
  rw [← hheap] at hnext
  refine (bind_of_ok (liftM_of_ok hnext)).trans ?_
  rw [hm₁, afterExit, target_eq ha]
  exact jumpForward_withCalls hin

theorem turn_fault (ha : AtLoop sequence below held cursor distance target f rest t m) {fault : Fault}
    (hnext : m.heap.nextItem sequence cursor = .error fault) :
    ∃ m', instruction host m = .error fault m' := by
  refine ⟨m.withCalls t t.fiber.stack (f.skip Opcode.iterate.size :: rest), ?_⟩
  apply instruction_eq_leaving ha
  intro m₁ hm₁ hheap
  rw [← hheap] at hnext
  rw [← hm₁]
  exact bind_of_error (liftM_of_error hnext)

/-! ## A turn over a span -/

/-- The object that a loop goes over is a span. -/
def HoldsSpan (sequence : Value) (s : Span) (m : Machine) : Prop :=
  ∃ r o, sequence.toHandle? = some r ∧ m.heap.get? r = some o ∧ o.body = .span s

section Turns

variable {s : Span}

/-- Where a loop over a span is: at the cursor, or at the start when there is none yet. -/
def position (s : Span) (cursor : Value) : Float := cursor.toFloat?.getD s.start

theorem nextItem_of_ends (h : HoldsSpan sequence s m) (he : s.ends (position s cursor) = true) :
    m.heap.nextItem sequence cursor = .ok none := by
  obtain ⟨r, o, hr, ho, hbody⟩ := h
  have hget : m.heap.get r = .ok o := by simp only [Heap.get, ho]
  unfold Span.ends position at he
  simp only [Heap.nextItem, hr, hget, bind, Except.bind, hbody, he,
    ↓reduceIte, pure, Except.pure]

theorem nextItem_of_not_ends (h : HoldsSpan sequence s m) (he : s.ends (position s cursor) = false) :
    m.heap.nextItem sequence cursor = (s.advance (position s cursor)).map fun next =>
      some (.ofFloat (position s cursor), .ofFloat next) := by
  obtain ⟨r, o, hr, ho, hbody⟩ := h
  have hget : m.heap.get r = .ok o := by simp only [Heap.get, ho]
  unfold Span.ends position at he
  simp only [Heap.nextItem, hr, hget, bind, Except.bind, hbody, he,
    Bool.false_eq_true, ↓reduceIte, pure, Except.pure, position]
  cases s.advance (cursor.toFloat?.getD s.start) <;> simp only [Except.map]

theorem position_nil : position s .nil = s.start := by
  have hnil : Value.nil.isNumber = false := by decide
  rw [position, Value.toFloat?, Value.toDouble?, hnil]
  simp only [Bool.false_eq_true, ↓reduceIte, Option.map_none, Option.getD_none]

theorem position_ofFloat (x : Float) : position s (.ofFloat x) = x := by
  rw [position, Value.toFloat?_ofFloat, Option.getD_some]

theorem yields_at_ofFloat {x : Float} {left : List Float} (h : s.Yields x left) :
    s.Yields (position s (.ofFloat x)) left := by
  rw [position_ofFloat]
  exact h

end Turns

/-! ## Turn after turn -/

/-- A turn has put an item into the loop variable and goes on with the body. -/
def Stores (sequence cursor item next : Value) (m m' : Machine) : Prop :=
  ∃ below held distance target f rest t, AtLoop sequence below held cursor distance target f rest t m ∧
    m' = afterItem sequence below item next f rest t m

/-- A turn has left the loop. -/
def Leaves (sequence cursor : Value) (m m' : Machine) : Prop :=
  ∃ below held distance target f rest t, AtLoop sequence below held cursor distance target f rest t m ∧
    m' = afterExit target f rest t m

/-- A loop over a span has come to its instruction with a cursor. -/
structure ComesTo (sequence : Value) (s : Span) (cursor : Value) (m : Machine) : Prop where
  span : HoldsSpan sequence s m
  atLoop : ∃ below held distance target f rest t,
    AtLoop sequence below held cursor distance target f rest t m

/-- A loop over a span comes to its instruction, at first with no cursor and after that with the
one that the turn before has left. Between two turns the rest of the machine may change in every
way. The list has the items that the turns so far have put into the variable. -/
inductive Rounds (host : HostFunctions) (sequence : Value) (s : Span) :
    Machine → Value → List Value → Prop
  | first {m : Machine} : ComesTo sequence s .nil m → Rounds host sequence s m .nil []
  | again {m m' m₁ : Machine} {cursor item next : Value} {items : List Value} :
      Rounds host sequence s m cursor items → instruction host m = .ok () m' →
      Stores sequence cursor item next m m' → ComesTo sequence s next m₁ →
      Rounds host sequence s m₁ next (items ++ [item])

variable {s : Span} {items : List Value} {m₁ : Machine}

theorem Rounds.comesTo (h : Rounds host sequence s m cursor items) : ComesTo sequence s cursor m := by
  cases h with
  | first h => exact h
  | again _ _ _ h => exact h

theorem leaves_of_ends (host : HostFunctions) (hc : ComesTo sequence s cursor m)
    (he : s.ends (position s cursor) = true) :
    ∃ m', instruction host m = .ok () m' ∧ Leaves sequence cursor m m' := by
  obtain ⟨below, held, distance, target, f, rest, t, ha⟩ := hc.atLoop
  exact ⟨_, turn_exit ha (nextItem_of_ends hc.span he), below, held, distance, target, f, rest, t,
    ha, rfl⟩

theorem stores_of_advance (host : HostFunctions) (hc : ComesTo sequence s cursor m)
    (he : s.ends (position s cursor) = false) {x : Float}
    (hx : s.advance (position s cursor) = .ok x) :
    ∃ m', instruction host m = .ok () m' ∧
      Stores sequence cursor (.ofFloat (position s cursor)) (.ofFloat x) m m' := by
  obtain ⟨below, held, distance, target, f, rest, t, ha⟩ := hc.atLoop
  have hnext := nextItem_of_not_ends hc.span he
  rw [hx] at hnext
  exact ⟨_, turn_item ha hnext, below, held, distance, target, f, rest, t, ha, rfl⟩

theorem fails_of_advance (host : HostFunctions) (hc : ComesTo sequence s cursor m)
    (he : s.ends (position s cursor) = false) {fault : Fault} (hx : s.advance (position s cursor) = .error fault) :
    ∃ m', instruction host m = .error fault m' := by
  obtain ⟨below, held, distance, target, f, rest, t, ha⟩ := hc.atLoop
  have hnext := nextItem_of_not_ends hc.span he
  rw [hx] at hnext
  exact turn_fault ha hnext

/-- A turn that has left the loop has not stored an item too, for the two go on at different
places. -/
theorem not_stores_of_leaves (hl : Leaves sequence cursor m m') : ¬ Stores sequence cursor item next m m' := by
  rintro ⟨below, held, distance, target, f, rest, t, ha, rfl⟩
  obtain ⟨below', held', distance', target', f', rest', t', ha', heq⟩ := hl
  obtain rfl : t = t' := Option.some.inj (ha.running.symm.trans ha'.running)
  obtain ⟨rfl, rfl⟩ := List.cons.inj (ha.frames.symm.trans ha'.frames)
  have hframes := congrArg (fun m => (m.running.map fun t => t.fiber.frames)) heq
  simp only [afterItem, afterExit, withCalls, Option.map_some, Option.some.injEq, List.cons.injEq,
    and_true] at hframes
  have hip := congrArg Frame.ip hframes
  have htarget := target_eq ha'
  have hapart := ha'.apart
  simp only [Frame.skip] at hip
  omega

theorem eq_of_stores {item' next' : Value} (h : Stores sequence cursor item next m m')
    (h' : Stores sequence cursor item' next' m m') : item = item' ∧ next = next' := by
  obtain ⟨below, held, distance, target, f, rest, t, ha, rfl⟩ := h
  obtain ⟨below', held', distance', target', f', rest', t', ha', heq⟩ := h'
  have hvalues := congrArg (fun m => (m.running.map fun t => t.fiber.stack.values.toList)) heq
  simp only [afterItem, withCalls, Option.map_some, Option.some.injEq, Array.toList_append] at hvalues
  have hwindow := (List.append_inj' hvalues rfl).2
  simp only [List.cons.injEq, and_true, true_and] at hwindow
  exact hwindow

/-- What the turns have stored so far is a beginning of the values, and the span has the others
from the cursor on. -/
theorem Rounds.beginning (hl : ¬ s.Lost) {vs : Array Float} (hv : s.values = .ok vs)
    (h : Rounds host sequence s m cursor items) : ∃ left,
      vs.toList.map Value.ofFloat = items ++ left.map Value.ofFloat ∧
        s.Yields (position s cursor) left := by
  induction h with
  | first _ => exact ⟨vs.toList, rfl, position_nil ▸ s.yields_of_values hl hv⟩
  | @again m m' m₁ cursor item next items hrounds hturn hstores _ ih =>
    obtain ⟨left, heq, hyields⟩ := ih
    have hcomes := hrounds.comesTo
    cases hyields with
    | nil hends =>
      obtain ⟨m₂, hturn₂, hleaves⟩ := leaves_of_ends host hcomes hends
      obtain rfl : m' = m₂ := by
        rw [hturn] at hturn₂
        cases hturn₂
        rfl
      exact absurd hstores (not_stores_of_leaves hleaves)
    | cons hends hadvance hrest =>
      obtain ⟨m₂, hturn₂, hstores₂⟩ := stores_of_advance host hcomes hends hadvance
      obtain rfl : m' = m₂ := by
        rw [hturn] at hturn₂
        cases hturn₂
        rfl
      obtain ⟨rfl, rfl⟩ := eq_of_stores hstores hstores₂
      refine ⟨_, ?_, yields_at_ofFloat hrest⟩
      simp [heq]

/-- After a turn the loop may come to its instruction again at once. -/
theorem comesTo_of_stores (hc : ComesTo sequence s cursor m) (h : Stores sequence cursor item next m m') :
    ∃ m₁, ComesTo sequence s next m₁ := by
  obtain ⟨below, held, distance, target, f, rest, t, ha, rfl⟩ := h
  let stack : OperandStack := ⟨below ++ #[item, sequence, next], t.fiber.stack.limit⟩
  let back : Running := ⟨t.id, { t.fiber with stack, frames := f :: rest }⟩
  refine ⟨m.withCalls t stack (f :: rest), hc.span, below, item, distance, target, f, rest, back, ?_⟩
  exact ⟨⟨rfl, rfl, ha.row⟩, rfl, ha.inside, ha.apart⟩

theorem Rounds.exists_all {left : List Float} (hy : s.Yields (position s cursor) left)
    (h : Rounds host sequence s m cursor items) : ∃ m' cursor',
      Rounds host sequence s m' cursor' (items ++ left.map Value.ofFloat) := by
  induction left generalizing m cursor items with
  | nil => exact ⟨m, cursor, by simpa using h⟩
  | cons x left ih =>
    cases hy with
    | cons hends hadvance hrest =>
      obtain ⟨m', hturn, hstores⟩ := stores_of_advance host h.comesTo hends hadvance
      obtain ⟨m₁, hcomes⟩ := comesTo_of_stores h.comesTo hstores
      have hagain := h.again hturn hstores hcomes
      obtain ⟨m₂, cursor₂, hall⟩ := ih (yields_at_ofFloat hrest) hagain
      exact ⟨m₂, cursor₂, by simpa using hall⟩

/-! ## What is guaranteed -/

/-- A loop over a span and the values of the span. When these are not lost, the turns of the loop
store the values one by one, each once and in order, and after the last one the loop is left.
When they are lost, a span that has no values is entered nevertheless: the first turn stores the
start, or it fails because the step is too small to move on. -/
structure LoopGuarantees (host : HostFunctions) : Prop where
  lost : ∀ s : Span, s.Lost ↔
    s.contains s.start = true ∧ (s.step == 0.0) = false ∧ s.length = .ok 0
  agrees : ∀ {s : Span} {vs : Array Float} {sequence cursor : Value} {items : List Value}
    {m : Machine}, ¬ s.Lost → s.values = .ok vs → Rounds host sequence s m cursor items →
    ∃ left, vs.toList.map Value.ofFloat = items ++ left ∧ ∃ m', instruction host m = .ok () m' ∧
      match left with
      | [] => Leaves sequence cursor m m'
      | v :: _ => ∃ next, Stores sequence cursor v next m m'
  runs : ∀ {s : Span} {vs : Array Float} {sequence : Value} {m : Machine}, ¬ s.Lost →
    s.values = .ok vs → ComesTo sequence s .nil m → ∃ m' cursor,
      Rounds host sequence s m' cursor (vs.toList.map Value.ofFloat)
  differs : ∀ {s : Span}, s.Lost → s.values = .ok #[] ∧
    ∀ {sequence : Value} {m : Machine}, ComesTo sequence s .nil m →
      (∃ next m', instruction host m = .ok () m' ∧
        Stores sequence .nil (.ofFloat s.start) next m m') ∨
      (∃ m', instruction host m =
        .error (.failed (.stuckRange s.start s.stop s.step s.start)) m')

theorem stores_or_leaves (hl : ¬ s.Lost) {vs : Array Float} (hv : s.values = .ok vs)
    (h : Rounds host sequence s m cursor items) : ∃ left,
      vs.toList.map Value.ofFloat = items ++ left ∧ ∃ m', instruction host m = .ok () m' ∧
        match left with
        | [] => Leaves sequence cursor m m'
        | v :: _ => ∃ next, Stores sequence cursor v next m m' := by
  obtain ⟨left, heq, hyields⟩ := h.beginning hl hv
  refine ⟨_, heq, ?_⟩
  cases hyields with
  | nil hends => exact leaves_of_ends host h.comesTo hends
  | cons hends hadvance _ =>
    obtain ⟨m', hturn, hstores⟩ := stores_of_advance host h.comesTo hends hadvance
    exact ⟨m', hturn, _, hstores⟩

theorem stores_of_lost (hl : s.Lost) (hc : ComesTo sequence s .nil m) :
    (∃ next m', instruction host m = .ok () m' ∧
      Stores sequence .nil (.ofFloat s.start) next m m') ∨
    (∃ m', instruction host m =
      .error (.failed (.stuckRange s.start s.stop s.step s.start)) m') := by
  have hends : s.ends (position s .nil) = false := by
    rw [position_nil, s.ends_eq_not_contains hl.2.1, hl.1]
    rfl
  cases hadvance : s.advance (position s .nil) with
  | ok x =>
    obtain ⟨m', hturn, hstores⟩ := stores_of_advance host hc hends hadvance
    rw [position_nil] at hstores
    exact .inl ⟨_, m', hturn, hstores⟩
  | error fault =>
    obtain ⟨m', hturn⟩ := fails_of_advance host hc hends hadvance
    have hfault : fault = .failed (.stuckRange s.start s.stop s.step s.start) := by
      rw [position_nil, Span.advance] at hadvance
      split at hadvance
      · cases hadvance
        rfl
      · cases hadvance
    exact .inr ⟨m', hfault ▸ hturn⟩

theorem loopGuarantees (host : HostFunctions) : LoopGuarantees host where
  lost := fun _ => Span.lost_iff
  agrees := fun hl hv h => stores_or_leaves hl hv h
  runs := fun hl hv hc => Rounds.exists_all
    (position_nil ▸ Span.yields_of_values hl hv) (.first hc)
  differs := fun hl => ⟨Span.values_of_lost hl, stores_of_lost hl⟩

/-- A loop over the span that is global, with nothing in its body. -/
def spanLoop : Prototype where
  name := "script"
  arity := 0
  isAsync := false
  code := #[
    Opcode.pushNil.toByte, Opcode.getGlobal.toByte, 0, 0, Opcode.pushNil.toByte,
    Opcode.iterate.toByte, 0, 3, Opcode.loop.toByte, 0, 6, Opcode.pushNil.toByte, Opcode.ret.toByte]
  constants := [.text "span"]
  lines := #[]

/-- The machine whose program has come to the loop over a span. -/
def looping (s : Span) : Machine :=
  after (do
    bindGlobal "span" (.ofHandle (← alloc (.span s)))
    start spanLoop
    discard (run HostFunctions.none 3)) (new {})


/-- The program is at the loop instruction over a span, with the three operands of the loop above
the function of the program. -/
def AtSpan (s : Span) (m : Machine) : Prop :=
  ∃ v ∈ m.global? "span", ∃ r ∈ v.toHandle?, (m.heap.span r).toOption = some s ∧
    (∃ b ∈ m.running.bind fun t => t.fiber.stack.values[0]?,
      (m.running.map fun t => t.fiber.stack.values) = some #[b, .nil, v, .nil]) ∧
    (m.frame?.map fun f => (rowAt f.chunk.code f.ip, decide (11 ≤ f.chunk.code.size))) =
      some (.instruction .iterate (.jump 3 11), true)

instance (s : Span) (m : Machine) : Decidable (AtSpan s m) := by
  unfold AtSpan
  infer_instance

theorem comesTo_of_atSpan {s : Span} {m : Machine} (h : AtSpan s m) : ∃ v, ComesTo v s .nil m := by
  obtain ⟨v, -, r, hr, hspan, ⟨b, -, hvalues⟩, hframe⟩ := h
  refine ⟨v, ?_, ?_⟩
  · cases ho : m.heap.get? r with
    | none => simp [Heap.span, Heap.get, ho, Except.toOption] at hspan
    | some o =>
      refine ⟨r, o, hr, ho, ?_⟩
      simp only [Heap.span, Heap.get, ho] at hspan
      cases hb : o.body with
      | span s' => simpa [hb, Except.toOption] using hspan
      | _ => simp [hb, Except.toOption] at hspan
  · obtain ⟨f, hf, hrow⟩ := Option.map_eq_some_iff.mp hframe
    obtain ⟨t, rest, ht, hframes⟩ := exists_running_of_frame? hf
    obtain ⟨t', ht', hvalues⟩ := Option.map_eq_some_iff.mp hvalues
    obtain rfl : t = t' := Option.some.inj (ht.symm.trans ht')
    rw [Prod.mk.injEq, decide_eq_true_eq] at hrow
    exact ⟨#[b], .nil, 3, 11, f, rest, t, ⟨⟨ht, hframes, hrow.1⟩, hvalues, hrow.2, by decide⟩⟩

/-- A loop over two values stores both. A loop over a span that has no values, for they are lost,
stores the start. -/
theorem loopGuarantees_looping : LoopGuarantees HostFunctions.none ∧
    (∃ sequence m' cursor, ComesTo sequence ⟨0.0, 2.0, 1.0⟩ .nil (looping ⟨0.0, 2.0, 1.0⟩) ∧
      Rounds HostFunctions.none sequence ⟨0.0, 2.0, 1.0⟩ m' cursor [.ofFloat 0.0, .ofFloat 1.0]) ∧
    Span.values ⟨0.0, Float.ofBits 1, 3.0⟩ = .ok #[] ∧
    ∃ sequence next m', ComesTo sequence ⟨0.0, Float.ofBits 1, 3.0⟩ .nil
        (looping ⟨0.0, Float.ofBits 1, 3.0⟩) ∧
      instruction HostFunctions.none (looping ⟨0.0, Float.ofBits 1, 3.0⟩) = .ok () m' ∧
      Stores sequence .nil (.ofFloat 0.0) next (looping ⟨0.0, Float.ofBits 1, 3.0⟩) m' := by
  have hall := loopGuarantees HostFunctions.none
  have hkept : ¬ Span.Lost ⟨0.0, 2.0, 1.0⟩ := by
    unfold Span.Lost
    decide +kernel
  have hvalues : Span.values ⟨0.0, 2.0, 1.0⟩ = .ok #[0.0, 1.0] := by decide +kernel
  have hlost : Span.Lost ⟨0.0, Float.ofBits 1, 3.0⟩ := by
    unfold Span.Lost
    decide +kernel
  have hat : AtSpan ⟨0.0, 2.0, 1.0⟩ (looping ⟨0.0, 2.0, 1.0⟩) := by decide +kernel
  have hat₁ : AtSpan ⟨0.0, Float.ofBits 1, 3.0⟩ (looping ⟨0.0, Float.ofBits 1, 3.0⟩) := by
    decide +kernel
  obtain ⟨v, hv⟩ := comesTo_of_atSpan hat
  obtain ⟨w, hw⟩ := comesTo_of_atSpan hat₁
  obtain ⟨m', cursor, hrounds⟩ := hall.runs hkept hvalues hv
  obtain ⟨hnone, henters⟩ := hall.differs hlost
  obtain ⟨next, m₁, hturn, hstores⟩ | ⟨m₁, hstuck⟩ := henters hw
  · exact ⟨hall, ⟨v, m', cursor, hv, hrounds⟩, hnone, w, next, m₁, hw, hturn, hstores⟩
  · have hgoes : (instruction HostFunctions.none (looping ⟨0.0, Float.ofBits 1, 3.0⟩)
      matches .ok _ _) = true := by decide +kernel
    rw [hstuck] at hgoes
    cases hgoes

end Machine

end FiberMachine
