import FiberMachine.Proofs.Ties.Builtins

/-!
# Calls side by side

A call finds the same function everywhere and builds the same frame. A class puts the new
instance among the operands before it calls a native constructor, and there it is found
again after a collection.
-/

namespace FiberMachine

variable {ι : Type} {T : Ties ι} {m : ι → Machine} {v : ι → Value} {k : Kind} {r : ι → Handle}

open Relation (ReflTransGen)
open Ties

namespace Machine

/-! ## Functions -/

theorem agree_frameLimitCheck (hm : T.Machines m) :
    Agree m (fun _ => frameLimitCheck) (Stays T fun _ => True) := by
  obtain ⟨limit, hlimit⟩ := hm.outside.config.map Config.maxFrames
  have hlimit : ∀ i, (m i).config.maxFrames = limit := hlimit
  refine agree_get ?_
  simp only [hlimit]
  refine (agree_fiber hm).next fun f m₁ hm₁ hf => ?_
  obtain ⟨depth, hdepth⟩ := hf.frames.length
  simp only [hdepth]
  split
  · exact agree_throw hm₁ nofun
  · exact agree_pure hm₁ ⟨rfl, trivial⟩

theorem agree_callFunction (hm : T.Machines m) (hr : T.handles k r) (argc : Nat)
    (constructs : Bool) :
    Agree m (fun i => callFunction (r i) argc constructs) (Grown T fun _ _ => True) := by
  refine agree_get ((agree_settled hm (Heaps.function hm.heap hr)).nextBy
    (fun _ _ => by dsimp only; split <;> [skip; split] <;> infer_instance)
    fun f m₁ (hm₁ : T.Machines m₁) ⟨hk, hf, hchunk⟩ => ?_)
  subst hk
  obtain ⟨arity, harity⟩ := hf.arity
  obtain ⟨isAsync, hasync⟩ := hf.isAsync
  obtain ⟨name, hname⟩ := hm₁.nameText hf.name
  simp only [harity, hasync]
  split
  · refine agree_get ?_
    simp only [hname]
    exact agree_throw hm₁ nofun
  · split
    · exact agree_spawn hm₁ hr argc
    · refine (agree_frameLimitCheck hm₁).next fun _ m₂ hm₂ _ => ?_
      refine (agree_fiber hm₂).next fun caller m₃ hm₃ hcaller => ?_
      obtain ⟨size, hsize⟩ := hcaller.stack.size
      simp only [hsize]
      refine (agree_settled hm₃ (settled_minus size argc)).next fun n m₄ hm₄ ⟨n, hn⟩ => ?_
      simp only [hn]
      refine (agree_settled hm₄ (settled_minus n 1)).next fun base m₅ hm₅ ⟨base, hbase⟩ => ?_
      simp only [hbase, Frame.enter]
      refine (agree_changeFiber hm₅ fun fiber hfiber => ?_).grown fun _ => id
      exact hfiber.withFrames (.cons (.mk hr hchunk hf.module) hfiber.frames)

/-! ## Native functions -/

variable {host : HostFunctions}

theorem agree_callNative [Inhabited ι] (hh : host.Agrees ι) (hm : T.Machines m) (n : Native) (argc : Nat)
    {receiver : ι → Option Value} (hr : Maybe T.Values receiver) :
    Agree m (fun i => callNative host n argc (receiver i))
      ⟨fun T' _ _ => Holds m T', fun _ => True⟩ := by
  have := hh.tends
  simp only [callNative]
  cases refused n.arity argc with
  | some expected => exact agree_throw hm (by simp)
  | none =>
    refine ((agree_top hm argc).makes (M := SameRunning) fun _ => inferInstance).bind
      inferInstance (fun T₁ args m₁ hm₁ h => ?_) fun _ _ => trivial
    obtain ⟨⟨hT, hargs⟩, hrow⟩ := h
    subst hT
    refine (agree_runNative hh hm₁ n (hr.toList.append hargs)).bind
      inferInstance (fun T₂ result m₂ hm₂ h => ?_) fun _ _ => trivial
    obtain ⟨hresult, hholds⟩ := h
    refine (agree_replaceTop hm₂ (argc + 1) hresult).imp (fun T₃ _ m₃ h => ?_) fun _ _ => trivial
    rw [h.1]
    exact hholds.of_running fun i => sameRunning_of_row (hrow i)

/-! ## Classes -/

theorem agree_poke_operand (hm : T.Machines m) (distance : Nat) (hv : T.Values v) :
    Agree m (fun i => poke distance (v i))
      ⟨fun T' _ m' => T' = T ∧ ∃ n, ∀ i, (m' i).operand? n = some (v i), T.Within⟩ := by
  rcases hm.outside.running.cases with hnone | ⟨t, ht, hsome⟩
  · refine agree_error hm (e := .failed .noFiber) (by simp) fun i => ?_
    simp only [poke, changeStack, hnone]
  · cases ht with
    | @mk id f hid hf =>
      obtain ⟨size, hsize⟩ := hf.stack.values.size
      by_cases hlt : distance < size
      · have hs := hf.stack.withValues (hf.stack.values.set (size - 1 - distance) hv)
        refine agree_ok (a := fun _ => ()) (hm.withRunning (.some (.mk hid (hf.withStack hs))))
          ⟨rfl, size - 1 - distance, fun i => ?_⟩ fun i => ?_
        · have hin : size - 1 - distance < (f i).stack.values.size := by
            have hsize := hsize i
            simp only at hsize
            omega
          simp [operand?, hin]
        · have hlt' : distance < (f i).stack.values.size := Nat.lt_of_lt_of_eq hlt (hsize i).symm
          simp only [poke, changeStack, hsome, OperandStack.poke_of_lt hlt', hsize]
      · refine agree_error hm (e := .operandMissing) (by simp) fun i => ?_
        have hle : (f i).stack.values.size ≤ distance := Nat.le_trans (Nat.le_of_eq (hsize i)) (Nat.not_lt.mp hlt)
        simp only [poke, changeStack, hsome, OperandStack.poke_of_le hle]

theorem agree_callClass [Inhabited ι] (hh : host.Agrees ι) (hm : T.Machines m)
    (hr : T.handles .classObject r) (argc : Nat) :
    Agree m (fun i => callClass host (r i) argc) (Anyhow fun _ _ => True) := by
  have := hh.tends
  refine (agree_lift hm (agree_newInstance hm.heap hr)).beforeBy (fun _ _ => .parts)
    fun T₁ s m₁ hle hm₁ hs => ?_
  have hv : T₁.Values fun i => .ofHandle (s i) := .object hs
  refine (agree_poke_operand hm₁ argc hv).bind (fun _ _ => .parts)
    (fun T₂ _ m₂ hm₂ h => ?_) fun _ _ => trivial
  obtain ⟨hT, n, hplace⟩ := h
  subst hT
  refine ((agree_intern hm₂ "construct").makes (M := SameRunning) fun _ => inferInstance).bind
    (fun _ _ => .parts) (fun T₃ name m₃ hm₃ h => ?_) fun _ _ => trivial
  obtain ⟨⟨hle', hname⟩, hrow⟩ := h
  refine ((agree_object hm₃ (hle'.handles (hle.handles hr))).makes (M := SameRunning)
    fun _ => inferInstance).bind (fun _ _ => .parts)
    (fun T₄ o m₄ hm₄ h => ?_) fun _ _ => trivial
  obtain ⟨⟨hT, ho⟩, hrow'⟩ := h
  subst hT
  have hm₄' : T₄.Machines m₄ := hm₄
  have hfound : Maybe T₄.Handled fun i => ((o i).members.find? (name i)).bind Value.toHandle? :=
    (Rows.find? ho.members (hm₄'.heap.apart_handles .text) hname).bind (fun _ => Value.toHandle?)
      fun w hw => hw.toHandle?
  rcases hfound.cases with hnone | ⟨method, ⟨l, hmethod⟩, hsome⟩
  · simp only [hnone]
    split
    · cases ho with
      | mk _ hb =>
        cases hb with
        | classObject hclass =>
          obtain ⟨text, htext⟩ := hm₄'.nameText hclass
          refine agree_get ?_
          simp only [htext]
          exact agree_throw hm₄ (by simp)
    · exact agree_pure hm₄ trivial
  · simp only [hsome]
    refine ((agree_object hm₄ hmethod).makes (M := SameRunning) fun _ => inferInstance).bind
      (fun _ _ => by split <;> infer_instance) (fun T₅ p m₅ hm₅ h => ?_) fun _ _ => trivial
    obtain ⟨⟨hT, hp⟩, hrow''⟩ := h
    subst hT
    cases hp with
    | mk _ hb =>
      have hn := hb.kindName
      cases hb with
      | function _ => exact (agree_callFunction hm₅ hmethod argc true).anyhow
      | native native =>
        have hreceiver := hv.mono hle'
        refine (agree_callNative hh hm₅ native argc (.some hreceiver)).bind inferInstance
          (fun T₆ _ m₆ hm₆ hholds => ?_) fun _ _ => trivial
        have hkept : ∀ i, (m₅ i).running = (m₂ i).running := fun i =>
          (sameRunning_of_row (hrow'' i)).trans
            ((sameRunning_of_row (hrow' i)).trans (sameRunning_of_row (hrow i)))
        have hvalue := hholds.of_running hkept n _ hplace
        exact ((agree_poke hm₆ 0 hvalue).grown fun _ => id).anyhow
      | _ => exact agree_fault hm₅ hn .notCallable (by simp)

/-! ## Other callees -/

theorem agree_callUnbound [Inhabited ι] (hh : host.Agrees ι) (hm : T.Machines m)
    (hr : T.handles k r) (argc : Nat) :
    Agree m (fun i => callUnbound host (r i) argc) (Anyhow fun _ _ => True) := by
  have := hh.tends
  refine (agree_poke hm argc (.object hr)).nextBy (fun _ _ => .andThen fun _ => by
    split <;> infer_instance) fun _ m₁ hm₁ _ => ?_
  refine (agree_object hm₁ hr).nextBy (fun _ _ => by split <;> infer_instance)
    fun o m₂ (hm₂ : T.Machines m₂) ho => ?_
  cases ho with
  | mk _ hb =>
    have hn := hb.kindName
    cases hb with
    | classObject _ => exact agree_callClass hh hm₂ hr argc
    | _ => exact agree_fault hm₂ hn .notCallable (by simp)

theorem agree_callBound [Inhabited ι] (hh : host.Agrees ι) (hm : T.Machines m)
    (hv : T.Values v) (hr : T.handles k r) (argc : Nat) :
    Agree m (fun i => callBound host (v i) (r i) argc) (Anyhow fun _ _ => True) := by
  have := hh.tends
  refine (agree_object hm hr).nextBy (fun _ _ => by
      split
      · infer_instance
      · exact .andThen fun _ => by split <;> infer_instance
      · infer_instance)
    fun o m₁ (hm₁ : T.Machines m₁) ho => ?_
  cases ho with
  | mk _ hb =>
    cases hb with
    | function _ => exact (agree_callFunction hm₁ hr argc false).anyhow
    | native native =>
      have hcall : ∀ receiver, Maybe T.Values receiver →
          Agree m₁ (fun i => callNative host native argc (receiver i)) (Anyhow fun _ _ => True) :=
        fun receiver hreceiver => (agree_callNative hh hm₁ native argc hreceiver).imp
          (fun _ _ _ _ => trivial) fun _ => id
      obtain ⟨kind, hkind⟩ := hm₁.heap.kindOf? hv
      refine agree_get ?_
      simp only [hkind]
      split
      · exact hcall _ .none
      · exact hcall _ (.some hv)
    | _ => exact agree_callUnbound hh hm₁ hr argc

theorem agree_callValue [Inhabited ι] (hh : host.Agrees ι) (hm : T.Machines m)
    (hv : T.Values v) (argc : Nat) :
    Agree m (fun i => callValue host (v i) argc) (Anyhow fun _ _ => True) := by
  have := hh.tends
  simp only [callValue]
  rcases hv.handle with hs | ⟨k, r, hr, hv'⟩
  · simp only [hs]
    exact agree_fault hm hv.scalarKind .notCallable (by simp)
  · simp only [hv']
    refine (agree_object hm hr).nextBy (fun _ _ => by split <;> infer_instance)
      fun o m₁ (hm₁ : T.Machines m₁) ho => ?_
    cases ho with
    | mk _ hb =>
      have hn := hb.kindName
      cases hb with
      | function _ => exact (agree_callFunction hm₁ hr argc false).anyhow
      | native native =>
        exact (agree_callNative hh hm₁ native argc .none).imp (fun _ _ _ _ => trivial) fun _ => id
      | classObject _ => exact agree_callClass hh hm₁ hr argc
      | boundMethod hreceiver hmethod =>
        refine (agree_poke hm₁ argc hreceiver).next fun _ m₂ hm₂ _ => ?_
        exact hmethod.elim (agree_callBound hh hm₂ hreceiver · argc)
          (agree_callBound hh hm₂ hreceiver · argc)
      | _ => exact agree_fault hm₁ hn .notCallable (by simp)

theorem agree_callMethod [Inhabited ι] (hh : host.Agrees ι) (hm : T.Machines m)
    (hv : T.Values v) {method : ι → Value} (hmethod : T.Values method) (argc : Nat) :
    Agree m (fun i => callMethod host (v i) (method i) argc) (Anyhow fun _ _ => True) := by
  have := hh.tends
  have hvalue : ∀ m₁, T.Machines m₁ → Agree m₁ (fun i => poke argc (method i) >>= fun _ =>
      callValue host (method i) argc) (Anyhow fun _ _ => True) := fun m₁ hm₁ =>
    (agree_poke hm₁ argc hmethod).next fun _ _ hm₂ _ => agree_callValue hh hm₂ hmethod argc
  simp only [callMethod]
  rcases hmethod.handle with hs | ⟨k, r, hr, hmethod'⟩
  · simp only [hs]
    exact agree_fault hm hmethod.scalarKind .notCallable (by simp)
  · simp only [hmethod']
    refine (agree_object hm hr).nextBy (fun _ _ => by split <;> infer_instance)
      fun o m₁ hm₁ ho => ?_
    simp only [ho.kind]
    cases k with
    | function | native => exact agree_callBound hh hm₁ hv hr argc
    | _ => exact hvalue m₁ hm₁

/-! ## Returns -/

theorem agree_returnFromCall (hm : T.Machines m) :
    Agree m (fun _ => returnFromCall) (Stays T fun _ => True) := by
  refine (agree_pop hm).nextBy (fun _ _ => .parts) fun result m₁ hm₁ hresult => ?_
  refine (agree_frame hm₁).nextBy (fun _ _ => .parts) fun done m₂ hm₂ hdone => ?_
  obtain ⟨ip, base, constructs, hnumbers⟩ := hdone.numbers
  simp only [hnumbers]
  refine (agree_changeFiber hm₂ fun f hf => hf.withFrames hf.frames.tail).nextBy
    (fun _ _ => .parts) fun _ m₃ hm₃ _ => ?_
  have hend : ∀ m₄ v, T.Machines m₄ → T.Values v → Agree m₄ (fun i =>
      (changeFiber fun fiber => { fiber with stack := fiber.stack.truncate base }) >>= fun _ =>
        fiber >>= fun f => if f.frames.isEmpty = true then finish else push (v i))
      (Stays T fun _ => True) := by
    intro m₄ v hm₄ hv
    refine (agree_changeFiber hm₄ fun f hf => hf.withStack (hf.stack.truncate base)).next
      fun _ m₅ hm₅ _ => ?_
    refine (agree_fiber hm₅).next fun f m₆ hm₆ hf => ?_
    rcases hf.frames.cases with hnil | ⟨frame, rest, _, _, hcons⟩
    · simp only [hnil, List.isEmpty_nil, ↓reduceIte]
      exact agree_finish hm₆
    · simp only [hcons, List.isEmpty_cons, Bool.false_eq_true, ↓reduceIte]
      exact agree_push hm₆ hv
  cases constructs with
  | false => exact hend m₃ result hm₃ hresult
  | true =>
    simp only [↓reduceIte]
    refine (agree_fiber hm₃).nextBy (fun _ _ => .parts) fun f m₄ hm₄ hf => ?_
    rcases (hf.stack.get? base).cases with hnone | ⟨v, hv, hsome⟩
    · simp only [hnone]
      exact agree_throw hm₄ (by simp)
    · simp only [hsome]
      exact hend m₄ v hm₄ hv

end Machine
end FiberMachine
