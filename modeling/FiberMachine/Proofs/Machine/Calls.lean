import FiberMachine.Proofs.Machine.Calm

/-!
# Calls

A call takes its callee and its arguments off the stack without looking whether they are
there. Whoever makes it has seen the callee below the arguments, and nothing that happens
in between takes an operand away. So no instruction crashes.
-/

namespace FiberMachine

variable {α β : Type} {P : Fault → Prop}

namespace Machine

/-- With at least `n` operands an action ends with no fault but those with a property, and when
it succeeds at least `k` are there. -/
structure Covers (P : Fault → Prop) (n : Nat) (x : Act α) (k : Nat) : Prop where
  fault : ∀ m fault m', n ≤ m.stackDepth → x m = .error fault m' → P fault
  depth : ∀ m a m', n ≤ m.stackDepth → x m = .ok a m' → k ≤ m'.stackDepth

namespace Covers

variable {n k l : Nat} {x : Act α} {f : α → Act β}

theorem of_throws (hx : Throws P x) : Covers P n x 0 :=
  ⟨fun _ _ _ _ h => hx.fault _ _ _ h, fun _ _ _ _ _ => Nat.zero_le _⟩

theorem mono (hx : Covers P n x k) (h : l ≤ k) : Covers P n x l :=
  ⟨hx.fault, fun _ _ _ hn he => Nat.le_trans h (hx.depth _ _ _ hn he)⟩

/-- An action that leaves the running fiber alone leaves its operands there. -/
theorem same [hx : Throws P x] [hs : Makes SameRunning x] : Covers P n x n where
  fault _ _ _ _ h := hx.fault _ _ _ h
  depth m a m' hn h := by
    have hrun := sameRunning_of_row (hs.row m)
    rw [after_ok h] at hrun
    rwa [stackDepth, hrun]

theorem bind (hx : Covers P n x k) (hf : ∀ a, Covers P k (f a) l) : Covers P n (x >>= f) l where
  fault m fault m' hn h := by
    rw [bind_apply] at h
    cases hs : x m with
    | ok a m₁ =>
      rw [hs] at h
      exact (hf a).fault _ _ _ (hx.depth _ _ _ hn hs) h
    | error e m₁ =>
      rw [hs] at h
      cases h
      exact hx.fault _ _ _ hn hs
  depth m b m' hn h := by
    rw [bind_apply] at h
    cases hs : x m with
    | ok a m₁ =>
      rw [hs] at h
      exact (hf a).depth _ _ _ (hx.depth _ _ _ hn hs) h
    | error e m₁ => simp [hs] at h

theorem throw [hP : Common P] {fault : Fault} (h : fault.isCommon = true) :
    Covers P n (throw fault : Act α) k where
  fault _ _ _ _ he := by
    cases he
    exact hP.of_common fault h
  depth _ _ _ _ he := by cases he

/-- What follows a look at the running fiber may use that its operands are there. -/
theorem bind_fiber [hP : Common P] {f : Fiber → Act β}
    (hf : ∀ t : Fiber, n ≤ t.stack.size → Covers P n (f t) l) :
    Covers P n (fiber >>= f) l := by
  have hsome : ∀ {m t}, m.running = some t → (fiber >>= f) m = f t.fiber m := fun ht => by
    simp only [bind_apply, fiber, ht]
  have hnone : ∀ {m}, m.running = none → (fiber >>= f) m = .error (.failed .noFiber) m :=
    fun ht => by simp only [bind_apply, fiber, ht]
  have hsize : ∀ {m : Machine} {t : Running}, m.running = some t → n ≤ m.stackDepth →
      n ≤ t.fiber.stack.size := fun ht hn => by simpa [stackDepth, ht] using hn
  refine ⟨fun m fault m' hn h => ?_, fun m b m' hn h => ?_⟩
  · cases ht : m.running with
    | some t =>
      rw [hsome ht] at h
      exact (hf _ (hsize ht hn)).fault _ _ _ hn h
    | none =>
      rw [hnone ht] at h
      cases h
      exact hP.of_common _ rfl
  · cases ht : m.running with
    | some t =>
      rw [hsome ht] at h
      exact (hf _ (hsize ht hn)).depth _ _ _ hn h
    | none =>
      rw [hnone ht] at h
      cases h

theorem throws (hx : Covers P 0 x k) : Throws P x := ⟨fun _ _ _ => hx.fault _ _ _ (Nat.zero_le _)⟩

end Covers

theorem stackDepth_changeStack {f : OperandStack → Except Fault OperandStack} {m m' : Machine}
    {u : Unit} (h : changeStack f m = .ok u m') : ∃ s s', f s = .ok s' ∧
      m.stackDepth = s.size ∧ m'.stackDepth = s'.size := by
  simp only [changeStack] at h
  split at h
  · rename_i ht
    split at h
    · rename_i hs
      cases h
      exact ⟨_, _, hs, by simp [stackDepth, ht], rfl⟩
    · cases h
  · cases h

variable [hP : Common P]

theorem covers_poke {n distance : Nat} {v : Value} : Covers P n (poke distance v) n where
  fault _ _ _ _ h := Throws.fault _ _ _ h
  depth m u m' hn h := by
    obtain ⟨s, s', hs, hm, hm'⟩ := stackDepth_changeStack h
    by_cases hd : distance < s.values.size
    · rw [OperandStack.poke_of_lt hd, Except.ok.injEq] at hs
      have hsize : s'.size = s.size := by simp [← hs, OperandStack.size]
      omega
    · rw [OperandStack.poke_of_le (Nat.not_lt.mp hd)] at hs
      cases hs

theorem covers_replaceTop {count : Nat} {v : Value} : Covers P count (replaceTop count v) 1 where
  fault m fault m' hn h := by
    simp only [replaceTop, changeStack] at h
    split at h
    · rename_i id stack _ _ _ _ _ ht
      have hle : count ≤ stack.size := by simpa [stackDepth, ht] using hn
      split at h
      · cases h
      · cases h
        exact (stack.raises_replaceTop hle v).fault _ (by assumption)
    · cases h
      exact hP.of_common _ rfl
  depth m u m' hn h := by
    obtain ⟨s, s', hs, hm, hm'⟩ := stackDepth_changeStack h
    rw [OperandStack.replaceTop_of_le (hm ▸ hn)] at hs
    simp only [OperandStack.push] at hs
    split at hs
    · cases hs
    · cases hs
      simp [hm', OperandStack.size]

theorem covers_peek {distance : Nat} : Covers P 0 (peek distance) (distance + 1) where
  fault _ _ _ _ h := Throws.fault _ _ _ h
  depth m v m' _ h := by
    simp only [peek] at h
    split at h
    · rename_i t ht
      by_cases hd : distance < t.fiber.stack.values.size
      · rw [OperandStack.peek_of_lt hd] at h
        cases h
        rw [stackDepth, ht]
        exact hd
      · rw [OperandStack.peek_of_le (Nat.not_lt.mp hd)] at h
        cases h
    · cases h

theorem covers_top {count : Nat} : Covers P 0 (top count) count where
  fault _ _ _ _ h := Throws.fault _ _ _ h
  depth m vs m' _ h := by
    simp only [top, bind_apply, fiber] at h
    cases ht : m.running with
    | none => simp [ht] at h
    | some t =>
      simp only [ht, except_apply] at h
      by_cases hc : count ≤ t.fiber.stack.values.size
      · rw [OperandStack.top_of_le hc] at h
        cases h
        rw [stackDepth, ht]
        exact hc
      · rw [OperandStack.top_of_lt (Nat.not_le.mp hc)] at h
        cases h

theorem covers_spawn (function : Handle) (argc : Nat) :
    Covers P (argc + 1) (spawn function argc) 0 := by
  unfold spawn
  exact .bind .same fun _ => .bind .same fun _ => .bind covers_replaceTop fun _ =>
    .of_throws (.bind inferInstance fun _ => inferInstance)

theorem covers_callFunction (r : Handle) (argc : Nat) (constructs : Bool) :
    Covers P (argc + 1) (callFunction r argc constructs) 0 := by
  unfold callFunction
  refine .bind .same fun _ => .bind .same fun f => ?_
  have hrest : Covers P (argc + 1) (if f.isAsync then spawn r argc else do
      frameLimitCheck
      let base ← Checked.minus (← Checked.minus (← fiber).stack.size argc) 1
      changeFiber fun fiber =>
        { fiber with
          frames := { Frame.enter r f.chunk base f.module with constructs } :: fiber.frames }) 0 := by
    split
    · exact covers_spawn r argc
    · refine .bind .same fun _ => .bind_fiber fun t ht => ?_
      rw [Checked.minus_of_le (by omega), liftM_ok_bind, Checked.minus_of_le (by omega),
        liftM_ok_bind]
      exact .of_throws inferInstance
  dsimp only
  split
  · exact .bind .same fun _ => .bind (.throw rfl) fun _ => hrest
  · exact hrest

/-! ### With functions of a host -/

variable {host : HostFunctions} [hcalm : ∀ n args, Throws P (runNative host n args)]
  [hsame : ∀ n args, Makes SameRunning (runNative host n args)]

theorem covers_callNative (n : Native) (argc : Nat) (receiver : Option Value) :
    Covers P (argc + 1) (callNative host n argc receiver) 1 := by
  unfold callNative
  split
  · exact .throw rfl
  · exact .bind .same fun _ => .bind .same fun _ => covers_replaceTop

theorem covers_callClass (cls : Handle) (argc : Nat) :
    Covers P (argc + 1) (callClass host cls argc) 0 := by
  unfold callClass
  refine .bind .same fun _ => .bind covers_poke fun _ => .bind .same fun _ => .bind .same fun o => ?_
  split
  · refine .bind .same fun o' => ?_
    split
    · exact covers_callFunction _ argc true
    · exact .bind (covers_callNative _ argc _) fun _ => .of_throws inferInstance
    · exact .throw rfl
  · split
    · dsimp only
      split
      · exact .bind .same fun _ => .bind .same fun _ => .throw rfl
      · exact .bind .same fun _ => .throw rfl
    · exact .of_throws inferInstance

theorem covers_callUnbound (r : Handle) (argc : Nat) :
    Covers P (argc + 1) (callUnbound host r argc) 0 := by
  unfold callUnbound
  refine .bind covers_poke fun _ => .bind .same fun o => ?_
  split
  · exact covers_callClass r argc
  · exact .throw rfl

theorem covers_callBound (receiver : Value) (r : Handle) (argc : Nat) :
    Covers P (argc + 1) (callBound host receiver r argc) 0 := by
  have hnative : ∀ n receiver, Covers P (argc + 1) (callNative host n argc receiver) 0 :=
    fun n receiver => (covers_callNative n argc receiver).mono (Nat.zero_le 1)
  unfold callBound
  refine .bind .same fun o => ?_
  split
  · exact covers_callFunction r argc false
  · refine .bind .same fun _ => ?_
    split <;> exact hnative _ _
  · exact covers_callUnbound r argc

theorem covers_callValue (callee : Value) (argc : Nat) :
    Covers P (argc + 1) (callValue host callee argc) 0 := by
  unfold callValue
  split
  · exact .throw rfl
  · refine .bind .same fun o => ?_
    split
    · exact covers_callFunction _ argc false
    · exact (covers_callNative _ argc none).mono (Nat.zero_le 1)
    · exact covers_callClass _ argc
    · exact .bind covers_poke fun _ => covers_callBound _ _ argc
    · exact .throw rfl

theorem covers_callMethod (receiver method : Value) (argc : Nat) :
    Covers P (argc + 1) (callMethod host receiver method argc) 0 := by
  unfold callMethod
  split
  · exact .throw rfl
  · refine .bind .same fun o => ?_
    split
    · exact covers_callBound receiver _ argc
    · exact covers_callBound receiver _ argc
    · exact .bind covers_poke fun _ => covers_callValue method argc

/-- A call of a method looks at the receiver first, below the arguments. -/
instance (name : Handle) (argc : Nat) : Throws P (invoke host name argc) := by
  refine Covers.throws (k := 0) ?_
  unfold invoke
  refine .bind covers_peek fun receiver => ?_
  split
  · exact .throw rfl
  · refine .bind .same fun o => .bind .same fun m => ?_
    split
    · refine .bind .same fun m' => ?_
      split
      · exact .bind covers_poke fun _ => covers_callValue _ argc
      · exact covers_callMethod receiver _ argc
    · split
      · exact .bind covers_poke fun _ => covers_callValue _ argc
      · exact .bind .same fun _ => .throw rfl

instance : Throws P (call host) := by
  unfold call
  exact .bind inferInstance fun argc =>
    (Covers.bind covers_peek fun callee => covers_callValue callee argc).throws

instance : Throws P (callMember host) := by
  unfold callMember
  exact .parts

/-! ## Instructions -/

instance (count : Nat) : Throws P (createList count) :=
  (Covers.bind covers_top fun _ => .bind .same fun _ => covers_replaceTop).throws

instance (count : Nat) : Throws P (interpolate count) :=
  (Covers.bind covers_top fun _ => .bind .same fun _ => .bind .same fun _ =>
    covers_replaceTop).throws

/-- No family gets an instruction that is strange to it. -/
instance (op : Opcode) : Throws P (execute host op) := by
  cases op <;> simp only [execute, arithmetic, comparison, bindings, control, functions, collections,
    objects, iterators, strings, imports, suspensions] <;> exact .parts

theorem throws_instruction (hb : ∀ byte, P (.unknownOpcode byte)) :
    Throws P (instruction host) := by
  have hunknown (byte : UInt8) : Throws P (throw (.unknownOpcode byte) : Act Unit) :=
    .throw_of (hb byte)
  unfold instruction
  exact .parts

theorem throws_step (hb : ∀ byte, P (.unknownOpcode byte)) : Throws P (step host) := by
  have hinstruction : Throws P (instruction host) := throws_instruction hb
  unfold step
  exact .parts

end Machine

end FiberMachine
