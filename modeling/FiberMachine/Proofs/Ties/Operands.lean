import FiberMachine.Machine.Operands
import FiberMachine.Proofs.Ties.Machines

/-!
# Running fibers side by side

What is done to operands and frames looks at heights, limits and code, which are the same
for tied fibers. So pushing, popping and reading agree.
-/

namespace FiberMachine

variable {ι : Type} {T : Ties ι} {m : ι → Machine} {v : ι → Value}

open Ties

namespace Ties

/-! ## Parts of a fiber -/

theorem Fibers.stack {f : ι → Fiber} (hf : T.Fibers f) : T.Stacks fun i => (f i).stack := by
  cases hf with
  | mk hs _ _ _ => exact hs

theorem Fibers.frames {f : ι → Fiber} (hf : T.Fibers f) : Each T.Frames fun i => (f i).frames := by
  cases hf with
  | mk _ hframes _ _ => exact hframes

theorem Fibers.caller {f : ι → Fiber} (hf : T.Fibers f) :
    Maybe (T.handles .fiber) fun i => (f i).caller := by
  cases hf with
  | mk _ _ hc _ => exact hc

theorem Fibers.module {f : ι → Fiber} (hf : T.Fibers f) :
    Maybe (T.handles .module) fun i => (f i).module := by
  cases hf with
  | mk _ _ _ hm => exact hm

theorem Fibers.state {f : ι → Fiber} (hf : T.Fibers f) : Same fun i => (f i).state := by
  cases hf
  exact .const _

theorem Fibers.kind {f : ι → Fiber} (hf : T.Fibers f) : Same fun i => (f i).kind := by
  cases hf
  exact .const _

theorem Fibers.withStack {f : ι → Fiber} (hf : T.Fibers f) {s : ι → OperandStack}
    (hs : T.Stacks s) : T.Fibers fun i => { f i with stack := s i } := by
  cases hf with
  | mk _ hframes hc hm => exact .mk hs hframes hc hm

theorem Fibers.withFrames {f : ι → Fiber} (hf : T.Fibers f) {frames : ι → List Frame}
    (hframes : Each T.Frames frames) : T.Fibers fun i => { f i with frames := frames i } := by
  cases hf with
  | mk hs _ hc hm => exact .mk hs hframes hc hm

theorem Fibers.withCaller {f : ι → Fiber} (hf : T.Fibers f) {caller : ι → Option Handle}
    (hc : Maybe (T.handles .fiber) caller) :
    T.Fibers fun i => { f i with caller := caller i } := by
  cases hf with
  | mk hs hframes _ hm => exact .mk hs hframes hc hm

theorem Fibers.withState {f : ι → Fiber} (hf : T.Fibers f) (state : FiberState) :
    T.Fibers fun i => { f i with state } := by
  cases hf with
  | mk hs hframes hc hm => exact .mk hs hframes hc hm

/-! ## Operands -/

theorem Stacks.values {s : ι → OperandStack} (hs : T.Stacks s) :
    T.Arrays fun i => (s i).values := by
  cases hs with
  | mk hv => exact hv

theorem Stacks.withValues {s : ι → OperandStack} (hs : T.Stacks s) {values : ι → Array Value}
    (hv : T.Arrays values) : T.Stacks fun i => { s i with values := values i } := by
  cases hs with
  | mk _ => simpa only [Array.toArray_toList] using Stacks.mk hv

variable {s : ι → OperandStack}

theorem Stacks.size (hs : T.Stacks s) : Same fun i => (s i).size := hs.values.size

theorem Stacks.get? (hs : T.Stacks s) (index : Nat) : Maybe T.Values fun i => (s i).get? index :=
  hs.values.getElem? index

theorem Stacks.push (hs : T.Stacks s) (hv : T.Values v) :
    Settled T.Stacks fun i => (s i).push (v i) := by
  obtain ⟨size, hsize⟩ := hs.values.size
  have hpush := hs.withValues (hs.values.push hv)
  cases hs with
  | mk _ =>
    simp only at hsize
    simp only [OperandStack.push, hsize]
    split
    · exact .error (by simp)
    · exact .ok hpush

theorem Stacks.pop (hs : T.Stacks s) :
    Settled (fun p => T.Values (fun i => (p i).1) ∧ T.Stacks fun i => (p i).2)
      fun i => (s i).pop := by
  obtain ⟨size, hsize⟩ := hs.values.size
  simp only [OperandStack.pop, Array.back?, hsize]
  rcases (hs.values.getElem? (size - 1)).cases with hnone | ⟨v, hv, hsome⟩
  · simp only [hnone]
    exact .error nofun
  · simp only [hsome]
    exact Or.inl ⟨fun i => (_, _), ⟨hv, hs.withValues hs.values.pop⟩, fun _ => rfl⟩

theorem Stacks.indexFromTop (hs : T.Stacks s) (distance : Nat) :
    Settled Same fun i => (s i).indexFromTop distance := by
  obtain ⟨size, hsize⟩ := hs.values.size
  simp only [OperandStack.indexFromTop, hsize]
  split
  · exact .error (by simp)
  · refine (settled_minus size 1).bind fun n hn => ?_
    obtain ⟨n, hn⟩ := hn
    simp only [hn]
    exact settled_minus n distance

theorem Stacks.peek (hs : T.Stacks s) (distance : Nat) :
    Settled T.Values fun i => (s i).peek distance := by
  refine (hs.indexFromTop distance).bind fun n hn => ?_
  obtain ⟨n, hn⟩ := hn
  simp only [hn]
  exact hs.values.settled_item n

theorem Stacks.poke (hs : T.Stacks s) (distance : Nat) (hv : T.Values v) :
    Settled T.Stacks fun i => (s i).poke distance (v i) := by
  refine (hs.indexFromTop distance).bind fun n hn => ?_
  obtain ⟨n, hn⟩ := hn
  simp only [hn]
  exact (hs.values.settled_setItem n hv).bind fun values hvalues => .ok (hs.withValues hvalues)

theorem Stacks.set? (hs : T.Stacks s) (index : Nat) (hv : T.Values v) :
    Maybe T.Stacks fun i => (s i).set? index (v i) := by
  obtain ⟨size, hsize⟩ := hs.values.size
  simp only [OperandStack.set?, hsize]
  split
  · exact .some (hs.withValues (hs.values.set _ hv))
  · exact .none

theorem Stacks.truncate (hs : T.Stacks s) (size : Nat) :
    T.Stacks fun i => (s i).truncate size := by
  refine hs.withValues ?_
  simpa only [Array.shrink_eq_take] using hs.values.extract 0 size

theorem Stacks.top (hs : T.Stacks s) (count : Nat) :
    Settled T.Arrays fun i => (s i).top count := by
  obtain ⟨size, hsize⟩ := hs.values.size
  simp only [OperandStack.top, hsize]
  split
  · exact .error (by simp)
  · refine (settled_minus size count).bind fun n hn => ?_
    obtain ⟨n, hn⟩ := hn
    simp only [hn]
    exact hs.values.settled_slice n size

theorem Stacks.replaceTop (hs : T.Stacks s) (count : Nat) (hv : T.Values v) :
    Settled T.Stacks fun i => (s i).replaceTop count (v i) := by
  obtain ⟨size, hsize⟩ := hs.size
  simp only [OperandStack.replaceTop, hsize]
  refine (settled_minus size count).bind fun n hn => ?_
  obtain ⟨n, hn⟩ := hn
  simp only [hn]
  exact (hs.truncate n).push hv

theorem Stacks.pushAll {vs : ι → List Value} (hs : T.Stacks s) (hvs : Each T.Values vs) :
    Settled T.Stacks fun i => (s i).pushAll (vs i) := by
  obtain ⟨l, hl, hvs⟩ := hvs
  simp only [hvs]
  clear hvs
  induction l generalizing s with
  | nil => exact .ok hs
  | cons v l ih =>
    simp only [List.map_cons, OperandStack.pushAll]
    refine (hs.push (hl v (List.mem_cons_self ..))).bind fun s' hs' => ?_
    exact ih hs' fun w hw => hl w (List.mem_cons_of_mem _ hw)

end Ties

namespace Machine

/-! ## The running fiber -/

/-- What fails without a running fiber. -/
theorem agree_running (hm : T.Machines m) {α : Type} {x : ι → Act α} {P : (ι → α) → Prop}
    (hnobody : ∀ i m, m.running = none → x i m = .error (.failed .noFiber) m)
    (hsome : ∀ id fiber, T.handles .fiber id → T.Fibers fiber →
      (∀ i, (m i).running = some ⟨id i, fiber i⟩) → Agree m x (Stays T P)) :
    Agree m x (Stays T P) := by
  rcases hm.outside.running.cases with hnone | ⟨t, ht, hrunning⟩
  · exact agree_error hm (e := .failed .noFiber) nofun fun i => hnobody i _ (hnone i)
  · cases ht with
    | mk hid hf => exact hsome _ _ hid hf hrunning

theorem agree_fiber (hm : T.Machines m) : Agree m (fun _ => fiber) (Stays T T.Fibers) := by
  refine agree_running hm (fun i m h => by simp only [fiber, h]) fun id f _ hf hsome => ?_
  exact agree_ok hm ⟨rfl, hf⟩ fun i => by simp only [fiber, hsome]

theorem agree_runningId (hm : T.Machines m) :
    Agree m (fun _ => runningId) (Stays T (T.handles .fiber)) := by
  refine agree_running hm (fun i m h => by simp only [runningId, h]) fun id f hid _ hsome => ?_
  exact agree_ok hm ⟨rfl, hid⟩ fun i => by simp only [runningId, hsome]

theorem agree_changeFiber (hm : T.Machines m) {f : ι → Fiber → Fiber}
    (hf : ∀ fiber, T.Fibers fiber → T.Fibers fun i => f i (fiber i)) :
    Agree m (fun i => changeFiber (f i)) (Stays T fun _ => True) := by
  refine agree_running hm (fun i m h => by simp only [changeFiber, h])
    fun id fiber hid hfiber hsome => ?_
  refine agree_ok (a := fun _ => ()) (hm.withRunning (.some (.mk hid (hf fiber hfiber))))
    ⟨rfl, trivial⟩ fun i => ?_
  simp only [changeFiber, hsome]

/-- What changes the operands and yields something along with it. -/
theorem agree_operands (hm : T.Machines m) {α : Type} {x : ι → Act α} {P : (ι → α) → Prop}
    {f : ι → OperandStack → Except Fault (α × OperandStack)}
    (hx : ∀ i m, x i m = match m.running with
      | some ⟨id, fiber⟩ => match f i fiber.stack with
        | .ok (a, stack) => .ok a { m with running := some ⟨id, { fiber with stack }⟩ }
        | .error fault => .error fault m
      | none => .error (.failed .noFiber) m)
    (hf : ∀ s, T.Stacks s → Settled (fun p => P (fun i => (p i).1) ∧ T.Stacks fun i => (p i).2)
      fun i => f i (s i)) : Agree m x (Stays T P) := by
  refine agree_running hm (fun i m h => by simp only [hx, h]) fun id fiber hid hfiber hsome => ?_
  rcases hf _ hfiber.stack with ⟨p, ⟨hp, hs⟩, hok⟩ | ⟨fault, hfault, herr⟩
  · refine agree_ok (a := fun i => (p i).1)
      (hm.withRunning (.some (.mk hid (hfiber.withStack hs)))) ⟨rfl, hp⟩ fun i => ?_
    simp only [hx, hsome, hok]
  · exact agree_error hm hfault fun i => by simp only [hx, hsome, herr]

theorem agree_changeStack (hm : T.Machines m) {f : ι → OperandStack → Except Fault OperandStack}
    (hf : ∀ s, T.Stacks s → Settled T.Stacks fun i => f i (s i)) :
    Agree m (fun i => changeStack (f i)) (Stays T fun _ => True) := by
  refine agree_operands hm (f := fun i s => (f i s).map fun s => ((), s)) (fun i m => ?_)
    fun s hs => ?_
  · simp only [changeStack]
    rcases m.running with _ | ⟨id, stack, frames, caller, kind, state, module⟩
    · rfl
    · simp only
      cases f i stack <;> rfl
  · rcases hf s hs with ⟨s', hs', hok⟩ | ⟨fault, hfault, herr⟩
    · exact Or.inl ⟨fun i => ((), s' i), ⟨trivial, hs'⟩, fun i => by simp only [hok]; rfl⟩
    · exact Or.inr ⟨fault, hfault, fun i => by simp only [herr]; rfl⟩

theorem agree_push (hm : T.Machines m) (hv : T.Values v) :
    Agree m (fun i => push (v i)) (Stays T fun _ => True) :=
  agree_changeStack hm fun _ hs => hs.push hv

theorem agree_poke (hm : T.Machines m) (distance : Nat) (hv : T.Values v) :
    Agree m (fun i => poke distance (v i)) (Stays T fun _ => True) :=
  agree_changeStack hm fun _ hs => hs.poke distance hv

theorem agree_replaceTop (hm : T.Machines m) (count : Nat) (hv : T.Values v) :
    Agree m (fun i => replaceTop count (v i)) (Stays T fun _ => True) :=
  agree_changeStack hm fun _ hs => hs.replaceTop count hv

theorem agree_pop (hm : T.Machines m) : Agree m (fun _ => pop) (Stays T T.Values) := by
  refine agree_operands hm (f := fun _ s => s.pop) (fun i m => ?_) fun s hs => hs.pop
  simp only [pop]
  rcases m.running with _ | ⟨id, stack, frames, caller, kind, state, module⟩
  · rfl
  · simp only
    cases stack.pop <;> rfl

theorem agree_peek (hm : T.Machines m) (distance : Nat) :
    Agree m (fun _ => peek distance) (Stays T T.Values) := by
  refine agree_running hm (fun i m h => by simp only [peek, h]) fun id fiber _ hfiber hsome => ?_
  rcases hfiber.stack.peek distance with ⟨v, hv, hok⟩ | ⟨fault, hfault, herr⟩
  · exact agree_ok hm ⟨rfl, hv⟩ fun i => by simp only [peek, hsome, hok]
  · exact agree_error hm hfault fun i => by simp only [peek, hsome, herr]

theorem agree_discard_pop (hm : T.Machines m) :
    Agree m (fun _ => discard pop) (Stays T fun _ => True) := by
  simp only [discard_eq_bind]
  exact (agree_pop hm).next fun _ _ hm' _ => agree_pure hm' ⟨rfl, trivial⟩

theorem agree_top (hm : T.Machines m) (count : Nat) :
    Agree m (fun _ => top count) (Stays T T.Arrays) :=
  (agree_fiber hm).next fun _ _ hm' hf => agree_settled hm' (hf.stack.top count)

theorem agree_frame (hm : T.Machines m) : Agree m (fun _ => frame) (Stays T T.Frames) := by
  refine (agree_fiber hm).nextBy (fun _ _ => by split <;> infer_instance) fun f m' hm' hf => ?_
  rcases hf.frames.cases with hnil | ⟨frame, rest, hframe, -, hcons⟩
  · simp only [hnil]
    exact agree_throw hm' (by simp)
  · simp only [hcons]
    exact agree_pure hm' ⟨rfl, hframe⟩

end Machine

/-! ## Frames -/

theorem Ties.Heaps.code {h : ι → Heap} (hT : T.Heaps h) {r : ι → Handle} {c : ι → Chunk}
    (hc : T.chunks r c) : Same (fun i => (c i).code) ∧ T.Arrays (fun i => (c i).constants) ∧
      Same fun i => (c i).lines := by
  obtain ⟨hr, hchunk⟩ := (hT.chunk r c).mp hc
  obtain ⟨o, ho, hget⟩ := hT.object hr
  simp only [Heap.chunk?, hget, Option.bind_some] at hchunk
  cases ho with
  | mk _ hb =>
    cases hb with
    | function hf =>
      cases hf with
      | mk _ hconstants _ =>
        obtain rfl : _ = c := funext fun i => Option.some.inj (hchunk i)
        exact ⟨.const _, hconstants, .const _⟩

theorem Ties.Frames.at {f : ι → Frame} (hf : T.Frames f) (ip : Nat) :
    T.Frames fun i => { f i with ip } := by
  cases hf with
  | mk hr hc hs => exact .mk hr hc hs

theorem Ties.Frames.scope {f : ι → Frame} (hf : T.Frames f) :
    Maybe (T.handles .module) fun i => (f i).scope := by
  cases hf with
  | mk _ _ hs => exact hs

theorem Ties.Frames.numbers {f : ι → Frame} (hf : T.Frames f) :
    ∃ ip base constructs, ∀ i, (f i).ip = ip ∧ (f i).base = base ∧
      (f i).constructs = constructs := by
  cases hf
  exact ⟨_, _, _, fun _ => ⟨rfl, rfl, rfl⟩⟩

theorem Ties.Frames.code {f : ι → Frame} (hf : T.Frames f) (hm : T.Machines m) :
    Same (fun i => (f i).chunk.code) ∧ T.Arrays (fun i => (f i).chunk.constants) ∧
      Same fun i => (f i).chunk.lines := by
  cases hf with
  | mk _ hc _ => exact hm.heap.code hc

namespace Machine

theorem agree_readByte (hm : T.Machines m) : Agree m (fun _ => readByte) (Stays T Same) := by
  refine agree_running hm (fun i m h => by simp only [readByte, h]) fun id f hid hf hsome => ?_
  rcases hf.frames.cases with hnil | ⟨g, rest, hg, hrest, hcons⟩
  · exact agree_error hm (e := .operandMissing) nofun fun i => by simp only [readByte, hsome, hnil]
  · obtain ⟨⟨code, hcode⟩, -, -⟩ := hg.code hm
    obtain ⟨ip, base, constructs, hnumbers⟩ := hg.numbers
    cases hbyte : code[ip]? with
    | none =>
      refine agree_error hm (e := .malformed .endOfCode) nofun fun i => ?_
      simp only [readByte, hsome, hcons, hcode, (hnumbers i).1, hbyte]
    | some byte =>
      refine agree_ok (hm.withRunning (.some (.mk hid (hf.withFrames (.cons (hg.at (ip + 1)) hrest)))))
        ⟨rfl, .const byte⟩ fun i => ?_
      simp only [readByte, hsome, hcons, hcode, (hnumbers i).1, hbyte]

theorem agree_readCount (hm : T.Machines m) : Agree m (fun _ => readCount) (Stays T Same) :=
  (agree_readByte hm).next fun _ _ hm' hb => agree_pure hm' ⟨rfl, hb.map UInt8.toNat⟩

theorem agree_readIndex (hm : T.Machines m) : Agree m (fun _ => readIndex) (Stays T Same) := by
  have hshort : Agree m (fun _ => readShort) (Stays T Same) :=
    (agree_readByte hm).next fun _ _ hm₁ hhigh => (agree_readByte hm₁).next fun _ _ hm₂ hlow =>
      agree_pure hm₂ ⟨rfl, hhigh.map₂ hlow decodeShort⟩
  exact hshort.next fun _ _ hm' hn => agree_pure hm' ⟨rfl, hn.map UInt16.toNat⟩

theorem agree_constant (hm : T.Machines m) (index : Nat) :
    Agree m (fun _ => constant index) (Stays T T.Values) := by
  refine (agree_frame hm).nextBy (fun _ _ => by split <;> infer_instance) fun f m₁ hm₁ hf => ?_
  rcases ((hf.code hm₁).2.1.getElem? index).cases with hnone | ⟨v, hv, hsome⟩
  · simp only [hnone]
    exact agree_throw hm₁ (by simp)
  · simp only [hsome]
    exact agree_pure hm₁ ⟨rfl, hv⟩

theorem agree_readName (hm : T.Machines m) :
    Agree m (fun _ => readName) (Stays T (T.handles .text)) := by
  refine (agree_readIndex hm).nextBy
    (fun _ _ => .andThen fun _ => .andThen fun _ => by split <;> infer_instance)
    fun index m₁ hm₁ hindex => ?_
  obtain ⟨index, hindex⟩ := hindex
  simp only [hindex]
  refine (agree_constant hm₁ index).nextBy
    (fun _ _ => .andThen fun _ => by split <;> infer_instance) fun v m₂ hm₂ hv => agree_get ?_
  rcases hv.handle with hs | ⟨k, r, hr, hv'⟩
  · simp only [hs]
    exact agree_throw hm₂ (by simp)
  · simp only [hv', hm₂.heap.kindOf?_handle hr hv']
    cases k with
    | text => exact agree_pure hm₂ ⟨rfl, hr⟩
    | _ => exact agree_throw hm₂ (by simp)

theorem agree_jumpTo (hm : T.Machines m) (target : Nat) :
    Agree m (fun _ => jumpTo target) (Stays T fun _ => True) := by
  refine (agree_frame hm).next fun f m₁ hm₁ hf => ?_
  obtain ⟨code, hcode⟩ := (hf.code hm₁).1
  obtain ⟨ip, base, constructs, hnumbers⟩ := hf.numbers
  have hip := fun i => (hnumbers i).1
  simp only [hcode, hip]
  split
  · exact agree_changeFiber hm₁ fun fiber hfiber =>
      hfiber.withFrames (.cons (hf.at target) hfiber.frames.tail)
  · exact agree_throw hm₁ nofun

theorem agree_jumpForward (hm : T.Machines m) (distance : Nat) :
    Agree m (fun _ => jumpForward distance) (Stays T fun _ => True) := by
  refine (agree_frame hm).next fun f m₁ hm₁ hf => ?_
  obtain ⟨ip, base, constructs, hnumbers⟩ := hf.numbers
  simp only [hnumbers]
  exact agree_jumpTo hm₁ _

theorem agree_jumpBack (hm : T.Machines m) (distance : Nat) :
    Agree m (fun _ => jumpBack distance) (Stays T fun _ => True) := by
  refine (agree_frame hm).next fun f m₁ hm₁ hf => ?_
  obtain ⟨ip, base, constructs, hnumbers⟩ := hf.numbers
  simp only [hnumbers]
  split
  · exact agree_jumpTo hm₁ _
  · exact agree_throw hm₁ nofun

end Machine
end FiberMachine
