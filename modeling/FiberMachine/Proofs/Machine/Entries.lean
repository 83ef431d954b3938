import FiberMachine.Proofs.Heap.Remains
import FiberMachine.Proofs.Machine.Preemption
import FiberMachine.Proofs.Ties.Invocation

/-!
# Where a call enters a function

A call comes to a function by itself, as a method of a receiver, or as the `construct` of a
class. A function that runs at once finds itself, the receiver or the new instance in slot
zero, the arguments behind it, and nothing else. An async function is entered on a fiber of
its own: the arguments are there, but slot zero holds the function on every route.
-/

namespace FiberMachine

open Relation (ReflTransGen)

/-- How a call comes to a function. -/
inductive Route
  | plain
  | method (receiver : Value)
  | construct (cls : Handle)

namespace Route

def constructs : Route → Bool
  | construct _ => true
  | _ => false

/-- What belongs in slot zero. An instance is new, and has the members of its class. -/
inductive Zero (r : Handle) (h h' : Heap) : Route → Value → Prop
  | plain : Zero r h h' .plain (.ofHandle r)
  | method (receiver : Value) : Zero r h h' (.method receiver) receiver
  | construct {cls s : Handle} {o : Object} : h.get? cls = some o → h.get? s = none →
      h'.get? s = some ⟨false, o.members, .instanceOf cls .empty⟩ →
      Zero r h h' (.construct cls) (.ofHandle s)

/-- The entry that belongs to a route. -/
structure Enters (route : Route) (r : Handle) (h h' : Heap) (e : Entry) : Prop where
  function : e.function = r
  constructs : e.constructs = route.constructs
  zero : route.Zero r h h' e.zero

theorem Zero.remains {r : Handle} {h h₁ h' : Heap} {route : Route} {v : Value}
    (hz : route.Zero r h h₁ v) (hk : h₁.Remains h') : route.Zero r h h' v := by
  cases hz with
  | plain => exact .plain
  | method => exact .method _
  | construct ho hfresh hs => exact .construct ho hfresh (hk _ _ hs)

end Route

/-- Calling a value comes to a function. -/
inductive Calls (h : Heap) (callee : Value) : Route → Handle → Prop
  | plain {r : Handle} {f : Function} : callee.toHandle? = some r → h.function r = .ok f →
      Calls h callee .plain r
  | method {b r : Handle} {receiver : Value} {o : Object} {f : Function} :
      callee.toHandle? = some b → h.get? b = some o → o.body = .boundMethod receiver r →
      h.function r = .ok f → Calls h callee (.method receiver) r
  | construct {cls className name r : Handle} {v : Value} {o : Object} {f : Function} :
      callee.toHandle? = some cls → h.get? cls = some o → o.body = .classObject className →
      h.texts.find? "construct" = some name → o.members.find? name = some v →
      v.toHandle? = some r → h.function r = .ok f → Calls h callee (.construct cls) r

/-- A fiber comes to the first instruction of a function: slot zero and the arguments are all
there is from the base of its new frame on. -/
def Entry.Starts (e : Entry) (f : Function) (args : Array Value) (w : Work) : Prop :=
  ∃ below rest, w.frames = e.frame f below.size :: rest ∧
    w.stack.values = below ++ #[e.zero] ++ args

theorem Heap.change_eq_ok {h h' : Heap} {r : Handle} {f : Object → Object}
    (hc : Heap.change r f h = .ok () h') : h' = h.update r f := by
  unfold Heap.change at hc
  by_cases hr : h.isLive r
  · rw [if_pos hr] at hc
    cases hc
    rfl
  · rw [if_neg hr] at hc
    cases hc

theorem Heap.Remains.function_eq {h h' : Heap} {r : Handle} {f : Function} (hk : h.Remains h')
    (hf : h.function r = .ok f) : h'.function r = .ok f := by
  obtain ⟨o, ho, hb⟩ := Heap.function_eq_ok.mp hf
  exact Heap.function_eq_ok.mpr ⟨o, hk _ _ ho, hb⟩

namespace Machine

variable {host : HostFunctions} {m m₁ m' : Machine} {t : Running} {argc : Nat} {route : Route}
variable {r : Handle} {callee receiver : Value} {f : Function}

/-! ## Functions -/

theorem remains_callFunction {constructs : Bool} (hw : m.heap.WellFormed)
    (hfit : m'.room ≤ Heap.slotLimit) (h : callFunction r argc constructs m = .ok () m') :
    m.heap.Remains m'.heap := by
  obtain ⟨_, _, hm, hfunction⟩ := bind_eq_ok h
  cases hm
  obtain ⟨f, _, hfunction, harity⟩ := bind_eq_ok hfunction
  obtain ⟨rfl, hf⟩ := except_eq_ok hfunction
  cases hasync : f.isAsync with
  | false =>
    obtain ⟨t, -, -, -, -, rfl⟩ := (callFunction_eq_ok_iff hf hasync).mp h
    exact .refl _
  | true =>
    by_cases ha : argc = f.arity.toNat
    · rw [if_neg (not_not.mpr ha)] at harity
      simp only [hasync, ↓reduceIte] at harity
      obtain ⟨id, m₁, hid, hargs⟩ := bind_eq_ok harity
      obtain ⟨rfl, t, ht, -⟩ := runningId_eq_ok hid
      obtain ⟨args, m₂, hargs, hnil⟩ := bind_eq_ok hargs
      obtain ⟨rfl, -⟩ := top_eq_ok ht hargs
      obtain ⟨_, m₃, hreplace, hspawned⟩ := bind_eq_ok hnil
      obtain ⟨stack, -, rfl⟩ := changeStack_eq_ok ht hreplace
      obtain ⟨s, m₄, hnew, hready⟩ := bind_eq_ok hspawned
      obtain ⟨body, -, rfl, -⟩ := newFiber_eq_ok hnew
      cases hready
      exact .alloc hw.toArena _ hfit
    · rw [if_pos ha] at harity
      simp only [bind_apply, get_apply, throw_apply, reduceCtorEq] at harity

theorem function_object (hf : m.heap.function r = .ok f) :
    ∃ o, object r m = .ok o m ∧ o.body = .function f := by
  obtain ⟨o, ho, hb⟩ := Heap.function_eq_ok.mp hf
  exact ⟨o, object_apply ho, hb⟩

/-- A function is entered that was found in the heap and is called with a value in slot zero. -/
theorem enters_callFunction (hw : m.heap.WellFormed) (hfit : m'.room ≤ Heap.slotLimit)
    (ht : m.running = some t) {zero : Value} (hpeek : t.fiber.stack.peek argc = .ok zero)
    {h₀ : Heap} (hzero : route.Zero r h₀ m.heap zero)
    (h : callFunction r argc route.constructs m = .ok () m') :
    Entered argc (route.Enters r h₀ m'.heap) m.heap t m' ∧ m.heap.Remains m'.heap := by
  have hk := remains_callFunction hw hfit h
  refine ⟨(entered_callFunction ht hpeek h).mono ?_, hk⟩
  rintro e rfl
  exact ⟨rfl, rfl, hzero.remains hk⟩

/-! ## Classes -/

/-- The heap with a new instance of a class in it. -/
def withInstance (cls : Handle) (o : Object) (h : Heap) : Heap :=
  (h.alloc (.instanceOf cls .empty)).1.update (h.alloc (.instanceOf cls .empty)).2
    (Heap.withMembers o.members)

/-- The heap with the new instance, in which a call of a class looks for `construct`. -/
def withConstruct (cls : Handle) (o : Object) (h : Heap) : Heap :=
  ((withInstance cls o h).intern "construct").1

/-- The text that a call of a class looks for. -/
def constructName (cls : Handle) (o : Object) (h : Heap) : Handle :=
  ((withInstance cls o h).intern "construct").2

theorem newInstance_cases {h h' : Heap} {cls s : Handle}
    (hmade : Heap.newInstance cls h = .ok s h') : ∃ o, h.get? cls = some o ∧
      h' = withInstance cls o h ∧ s = (h.alloc (.instanceOf cls .empty)).2 := by
  obtain ⟨_, h₁, hget, hmade⟩ := bind_eq_ok hmade
  cases hget
  obtain ⟨o, h₂, ho, hmade⟩ := bind_eq_ok hmade
  cases hget : h.get? cls with
  | none =>
    simp only [Heap.get, hget] at ho
    cases ho
  | some o' =>
    simp only [Heap.get, hget] at ho
    cases ho
    obtain ⟨s₁, h₃, hs, hmade⟩ := bind_eq_ok hmade
    simp only [Heap.run, EStateM.Result.ok.injEq] at hs
    obtain ⟨rfl, rfl⟩ := hs
    obtain ⟨_, h₄, hchange, hmade⟩ := bind_eq_ok hmade
    obtain rfl := Heap.change_eq_ok hchange
    cases hmade
    exact ⟨o, rfl, rfl, rfl⟩

theorem newInstance_eq_ok {cls s : Handle}
    (h : (liftM (Heap.newInstance cls) : Act Handle) m = .ok s m') :
    ∃ o, m.heap.get? cls = some o ∧ m' = { m with heap := withInstance cls o m.heap } ∧
      s = (m.heap.alloc (.instanceOf cls .empty)).2 := by
  rw [lift_apply] at h
  cases hx : Heap.newInstance cls m.heap with
  | error e h' => simp [hx] at h
  | ok s' h' =>
    simp only [hx, EStateM.Result.ok.injEq] at h
    obtain ⟨rfl, rfl⟩ := h
    obtain ⟨o, ho, rfl, hs⟩ := newInstance_cases hx
    exact ⟨o, ho, rfl, hs⟩

theorem size_withInstance (cls : Handle) (o : Object) (h : Heap) :
    (withInstance cls o h).slots.size = (h.alloc (.instanceOf cls .empty)).1.slots.size :=
  Heap.size_update ..

theorem texts_withInstance (hw : m.heap.WellFormed) {cls : Handle} {o : Object}
    (hfit : (withInstance cls o m.heap).slots.size ≤ Heap.slotLimit) :
    (withInstance cls o m.heap).texts = m.heap.texts := by
  rw [size_withInstance] at hfit
  exact (Heap.update_texts ..).trans (Heap.alloc_allocated hw.toArena _ hfit).texts

theorem wellFormed_withInstance (hw : m.heap.WellFormed) {cls : Handle} {o : Object}
    (hfit : (withInstance cls o m.heap).slots.size ≤ Heap.slotLimit) :
    (withInstance cls o m.heap).WellFormed := by
  rw [size_withInstance] at hfit
  exact (hw.alloc (fun _ hb => by cases hb) hfit).update (fun _ _ => rfl) fun _ _ _ => .rfl

theorem remains_withInstance (hw : m.heap.WellFormed) {cls : Handle} {o : Object}
    (hfit : (withInstance cls o m.heap).slots.size ≤ Heap.slotLimit) :
    m.heap.Remains (withInstance cls o m.heap) := by
  rw [size_withInstance] at hfit
  have ha := Heap.alloc_allocated hw.toArena _ hfit
  exact (Heap.Remains.alloc hw.toArena _ hfit).update ha.fresh _

theorem zero_withInstance (hw : m.heap.WellFormed) {cls : Handle} {o : Object}
    (hfit : (withInstance cls o m.heap).slots.size ≤ Heap.slotLimit)
    (ho : m.heap.get? cls = some o) :
    (Route.construct cls).Zero r m.heap (withInstance cls o m.heap)
      (.ofHandle (m.heap.alloc (.instanceOf cls .empty)).2) := by
  rw [size_withInstance] at hfit
  have ha := Heap.alloc_allocated hw.toArena _ hfit
  refine .construct ho ha.fresh ?_
  rw [withInstance, Heap.get?_update, if_pos rfl, ha.get?_self]
  rfl

section

variable {cls : Handle} {o p : Object} (hw : m.heap.WellFormed)
  (hfit : (withConstruct cls o m.heap).slots.size ≤ Heap.slotLimit)
include hw hfit

omit hw in
theorem size_withInstance_le : (withInstance cls o m.heap).slots.size ≤ Heap.slotLimit :=
  Nat.le_trans (Heap.size_le_intern _ _) hfit

theorem remains_withConstruct : m.heap.Remains (withConstruct cls o m.heap) := by
  have hfit₁ := size_withInstance_le hfit
  have hw₁ := wellFormed_withInstance hw hfit₁
  exact (remains_withInstance hw hfit₁).trans (.intern hw₁.toArena _ hfit)

theorem wellFormed_withConstruct : (withConstruct cls o m.heap).WellFormed :=
  (wellFormed_withInstance hw (size_withInstance_le hfit)).intern hfit

/-- What is new is neither a function nor a native function. -/
theorem get?_of_withConstruct (hp : (withConstruct cls o m.heap).get? r = some p) :
    m.heap.get? r = some p ∨ p.body = .instanceOf cls .empty ∨ p.body = .text "construct" := by
  have hfit₁ := size_withInstance_le hfit
  have hw₁ := wellFormed_withInstance hw hfit₁
  have hold : (withInstance cls o m.heap).get? r = some p →
      m.heap.get? r = some p ∨ p.body = .instanceOf cls .empty := by
    intro hp
    rw [size_withInstance] at hfit₁
    have ha := Heap.alloc_allocated hw.toArena _ hfit₁
    rw [withInstance, Heap.get?_update, ha.get?_self, ha.get?] at hp
    split at hp
    · cases hp
      exact .inr rfl
    · exact .inl hp
  cases hs : (withInstance cls o m.heap).texts.find? "construct" with
  | some name =>
    rw [withConstruct, Heap.intern_old hs] at hp
    exact (hold hp).imp_right .inl
  | none =>
    have hget : (withConstruct cls o m.heap).get? r =
        if r = constructName cls o m.heap then some (.ofBody (.text "construct"))
        else (withInstance cls o m.heap).get? r :=
      (Heap.intern_allocated hw₁.toArena hs hfit).1.get? r
    rw [hp] at hget
    split at hget
    · cases hget
      exact .inr (.inr rfl)
    · exact (hold hget.symm).imp_right .inl

end

/-! ## Calls -/

/-- A value may be put in slot zero first. -/
theorem poke_eq_ok (ht : m.running = some t) {v : Value} (h : poke argc v m = .ok () m') :
    ∃ stack, t.fiber.stack.poke argc v = .ok stack ∧ stack.peek argc = .ok v ∧
      m' = m.withStack t stack := by
  obtain ⟨stack, hstack, rfl⟩ := changeStack_eq_ok ht h
  exact ⟨stack, hstack, OperandStack.peek_poke hstack, rfl⟩

theorem room_le_callFunction {constructs : Bool}
    (h : callFunction r argc constructs m = .ok () m') : m.room ≤ m'.room :=
  after_ok h ▸ room_le_after (callFunction r argc constructs) m

theorem callValue_function (hr : callee.toHandle? = some r) (hf : m.heap.function r = .ok f) :
    callValue host callee argc m = callFunction r argc false m := by
  obtain ⟨o, ho, hb⟩ := function_object hf
  simp only [callValue, hr, bind_apply, ho, hb]

theorem callValue_method {b : Handle} {o : Object} (hb : callee.toHandle? = some b)
    (ho : m.heap.get? b = some o) (hbody : o.body = .boundMethod receiver r) :
    callValue host callee argc m =
      (do poke argc receiver; callBound host receiver r argc : Act Unit) m := by
  simp only [callValue, hb, bind_apply, object_apply ho, hbody]

theorem callValue_class {cls className : Handle} {o : Object} (hcls : callee.toHandle? = some cls)
    (ho : m.heap.get? cls = some o) (hbody : o.body = .classObject className) :
    callValue host callee argc m = callClass host cls argc m := by
  simp only [callValue, hcls, bind_apply, object_apply ho, hbody]

theorem callBound_of_function (hf : m.heap.function r = .ok f) :
    callBound host receiver r argc m = callFunction r argc false m := by
  obtain ⟨o, ho, hb⟩ := Heap.function_eq_ok.mp hf
  exact callBound_function ho hb

theorem intern_old {s : String} {name : Handle} (hs : m.heap.texts.find? s = some name) :
    intern s m = .ok name m := by
  simp only [intern, lift_apply, Heap.run, Heap.intern_old hs]

section Hosts

variable [∀ id args, Makes Tends (host.call id args)]

/-- The instance is built and put in place of the class, and then `construct` is called. -/
theorem callClass_eq_ok {cls name : Handle} {o : Object} {v : Value} (hw : m.heap.WellFormed)
    (hfit : m'.room ≤ Heap.slotLimit) (ht : m.running = some t) (ho : m.heap.get? cls = some o)
    (hname : m.heap.texts.find? "construct" = some name) (hmember : o.members.find? name = some v)
    (hv : v.toHandle? = some r) (hf : m.heap.function r = .ok f)
    (h : callClass host cls argc m = .ok () m') :
    ∃ stack, t.fiber.stack.poke argc (.ofHandle (m.heap.alloc (.instanceOf cls .empty)).2) =
        .ok stack ∧
      callFunction r argc true (withStack t stack { m with heap := withInstance cls o m.heap }) =
        .ok () m' := by
  obtain ⟨s, m₁, hs, hcall⟩ := bind_eq_ok h
  obtain ⟨o', ho', rfl, rfl⟩ := newInstance_eq_ok hs
  cases ho.symm.trans ho'
  let m₁ : Machine := { m with heap := withInstance cls o m.heap }
  have hroom : m₁.room ≤ m'.room := by
    refine after_ok hcall ▸ (tends_of_row ((?_ : Makes Tends _).row m₁)).room_le
    exact .parts
  obtain ⟨_, m₂, hpoke, hcall⟩ := bind_eq_ok hcall
  obtain ⟨stack, hstack, -, rfl⟩ := poke_eq_ok (m := m₁) ht hpoke
  refine ⟨stack, hstack, ?_⟩
  have hk := remains_withInstance hw (hroom.trans hfit)
  have htexts := texts_withInstance hw (hroom.trans hfit)
  obtain ⟨_, m₃, hintern, hcall⟩ := bind_eq_ok hcall
  rw [intern_old (m := m₁.withStack t stack) (htexts ▸ hname)] at hintern
  cases hintern
  obtain ⟨_, m₄, hobject, hcall⟩ := bind_eq_ok hcall
  rw [object_apply (m := m₁.withStack t stack) (hk _ _ ho)] at hobject
  cases hobject
  obtain ⟨p, hp, hb⟩ := Heap.function_eq_ok.mp hf
  simp only [hmember, Option.bind_some, hv, bind_apply,
    object_apply (m := m₁.withStack t stack) (hk _ _ hp), hb] at hcall
  exact hcall

/-- A value that is called comes to the function that it should, with the right slot zero. -/
theorem Calls.entered (hc : Calls m.heap callee route r) (hw : m.heap.WellFormed)
    (hfit : m'.room ≤ Heap.slotLimit) (ht : m.running = some t)
    (hpeek : t.fiber.stack.peek argc = .ok callee) (h : callValue host callee argc m = .ok () m') :
    Entered argc (route.Enters r m.heap m'.heap) m.heap t m' ∧ m.heap.Remains m'.heap := by
  cases hc with
  | plain hr hf =>
    rw [callValue_function hr hf] at h
    have hzero : Route.plain.Zero r m.heap m.heap callee := Value.ofHandle_of_toHandle? hr ▸ .plain
    exact enters_callFunction hw hfit ht hpeek hzero h
  | @method _ _ receiver _ _ hb ho hbody hf =>
    rw [callValue_method hb ho hbody] at h
    obtain ⟨_, m₁, hpoke, h⟩ := bind_eq_ok h
    obtain ⟨stack, hstack, hself, rfl⟩ := poke_eq_ok ht hpoke
    rw [callBound_of_function (m := m.withStack t stack) hf] at h
    have hzero : Route.Zero r m.heap (m.withStack t stack).heap (.method receiver) receiver :=
      .method receiver
    obtain ⟨hentered, hk⟩ := enters_callFunction (m := m.withStack t stack) hw hfit rfl hself hzero h
    exact ⟨hentered.of_poke hstack, hk⟩
  | @construct cls _ _ _ _ o _ hcls ho hbody hname hmember hv hf =>
    rw [callValue_class hcls ho hbody] at h
    obtain ⟨stack, hstack, h⟩ := callClass_eq_ok hw hfit ht ho hname hmember hv hf h
    have hroom := (room_le_callFunction h).trans hfit
    have hw₁ := wellFormed_withInstance hw hroom
    have hk₁ := remains_withInstance hw hroom
    have hzero := zero_withInstance (r := r) hw hroom ho
    let m₁ : Machine := { m with heap := withInstance cls o m.heap }
    have h : callFunction r argc (Route.construct cls).constructs (m₁.withStack t stack) =
      .ok () m' := h
    obtain ⟨hentered, hk⟩ := enters_callFunction (m := m₁.withStack t stack) hw₁ hfit rfl
      (OperandStack.peek_poke hstack) hzero h
    refine ⟨.of_poke hstack (hentered.behind fun _ _ => ⟨hw₁, fun _ => hk₁.isLive⟩), ?_⟩
    exact hk₁.trans hk

/-- Calling a member of a receiver comes to a function. -/
inductive Invokes (m : Machine) (receiver : Value) (name : Handle) : Route → Handle → Prop
  | method {q r : Handle} {o : Object} {v : Value} {f : Function} :
      receiver.toHandle? = some q → m.heap.get? q = some o → Bound name m o v r →
      m.heap.function r = .ok f → Invokes m receiver name (.method receiver) r
  | member {q r : Handle} {o : Object} {v : Value} {route : Route} :
      receiver.toHandle? = some q → m.heap.get? q = some o → Found name m o v →
      Calls m.heap v route r → Invokes m receiver name route r

theorem Invokes.entered {name : Handle} (hi : Invokes m receiver name route r)
    (hw : m.heap.WellFormed) (hfit : m'.room ≤ Heap.slotLimit) (ht : m.running = some t)
    (hpeek : t.fiber.stack.peek argc = .ok receiver) (h : invoke host name argc m = .ok () m') :
    Entered argc (route.Enters r m.heap m'.heap) m.heap t m' ∧ m.heap.Remains m'.heap := by
  have hreceiver : peek argc m = .ok receiver m := by simp only [peek, ht, hpeek]
  cases hi with
  | method hq ho hv hf =>
    rw [hv.invoke_eq hreceiver hq ho, callBound_of_function hf] at h
    have hzero : Route.Zero r m.heap m.heap (.method receiver) receiver := .method _
    exact enters_callFunction hw hfit ht hpeek hzero h
  | member hq ho hv hc =>
    have hsame : SameEnd Eq (invoke host name argc m) _ := hv.sameEnd_invoke hreceiver hq ho
    rw [h] at hsame
    cases hcall : callInPlace host _ argc m with
    | error e m₁ =>
      rw [hcall] at hsame
      cases hsame
    | ok _ m₁ =>
      rw [hcall] at hsame
      cases hsame with
      | ended heq =>
        subst heq
        obtain ⟨_, m₁, hpoke, hcall⟩ := bind_eq_ok hcall
        obtain ⟨stack, hstack, hself, rfl⟩ := poke_eq_ok ht hpoke
        obtain ⟨hentered, hk⟩ := Calls.entered (m := m.withStack t stack) hc hw hfit rfl hself hcall
        exact ⟨hentered.of_poke hstack, hk⟩

/-! ## Instructions -/

/-- The name that stands in the code of an instruction. -/
def nameAt? (frame : Frame) (offset : Nat) : Option Handle :=
  frame.chunk.constants[frame.shortAt offset]?.bind Value.toHandle?

theorem constant_eq_some {index : Nat} {v : Value} (h : constant index m = .ok v m') :
    ∃ f, m.frame? = some f ∧ f.chunk.constants[index]? = some v := by
  obtain ⟨f, m₁, hframe, hv⟩ := bind_eq_ok h
  obtain ⟨-, t, rest, ht, hf⟩ := frame_eq_ok hframe
  cases hc : f.chunk.constants[index]? with
  | none =>
    simp only [hc] at hv
    cases hv
  | some w =>
    simp only [hc] at hv
    cases hv
    exact ⟨f, frame?_eq_some ht hf, hc⟩

theorem readName_skip {frame : Frame} {rest : List Frame} {name : Handle} {k : Nat}
    (ht : m.running = some t) (hf : t.fiber.frames = frame :: rest)
    (h : readName (m.skip k) = .ok name m') :
    m' = m.skip (k + 2) ∧ nameAt? frame k = some name := by
  obtain rfl := readName_eq_ok h
  refine ⟨skip_skip .., ?_⟩
  obtain ⟨index, m₁, hread, hname⟩ := bind_eq_ok h
  obtain ⟨rfl, hindex⟩ := readIndex_skip ht hf hread
  obtain ⟨v, m₂, hv, hname⟩ := bind_eq_ok hname
  obtain ⟨f, hframe, hv⟩ := constant_eq_some hv
  rw [frame?_skip, frame?_eq_some ht hf, Option.map_some, Option.some.injEq] at hframe
  subst hframe
  have hv : frame.chunk.constants[frame.shortAt k]? = some v := hindex ▸ hv
  rw [nameAt?, hv, Option.bind_some]
  obtain ⟨m₃, m₄, -, hname⟩ := bind_eq_ok hname
  cases hr : v.toHandle? with
  | none =>
    simp only [hr] at hname
    cases hname
  | some r =>
    cases hk : m₃.heap.kindOf? v with
    | none =>
      simp only [hr, hk] at hname
      cases hname
    | some kind =>
      cases kind <;> simp only [hr, hk] at hname <;> cases hname
      rfl

/-- The running fiber comes to an instruction that calls a function. -/
inductive Calling (m : Machine) (t : Running) (argc : Nat) (route : Route) (r : Handle) : Prop
  | call {frame : Frame} {rest : List Frame} {callee : Value} : t.fiber.frames = frame :: rest →
      frame.opcode? = some .call → frame.byteAt 1 = argc →
      t.fiber.stack.peek argc = .ok callee → Calls m.heap callee route r →
      Calling m t argc route r
  | invoke {frame : Frame} {rest : List Frame} {name : Handle} {receiver : Value} :
      t.fiber.frames = frame :: rest → frame.opcode? = some .invoke →
      nameAt? frame 1 = some name → frame.byteAt 3 = argc →
      t.fiber.stack.peek argc = .ok receiver → Invokes m receiver name route r →
      Calling m t argc route r

theorem Invokes.skip {name : Handle} {k : Nat} (hi : Invokes m receiver name route r) :
    Invokes (m.skip k) receiver name route r := by
  cases hi with
  | method hq ho hv hf => exact .method hq ho ⟨hv.found, hv.handle, hv.kind, hv.binds⟩ hf
  | member hq ho hv hc =>
    refine .member hq ho ?_ hc
    cases hv with
    | plain hv hplain => exact .plain hv hplain
    | other hv hfunction hnative => exact .other hv hfunction hnative
    | field hv hfield => exact .field hv hfield

theorem Calling.entered (hc : Calling m t argc route r) (hw : m.heap.WellFormed)
    (hfit : m'.room ≤ Heap.slotLimit) (ht : m.running = some t)
    (h : instruction host m = .ok () m') :
    ∃ k, Entered argc (route.Enters r m.heap m'.heap) m.heap (t.skip k) m' ∧
      m.heap.Remains m'.heap := by
  cases hc with
  | call hframes hcall hargc hpeek hcalls =>
    have h := execute_of_instruction (frame?_eq_some ht hframes) hcall h
    obtain ⟨count, m₁, hread, hcallee⟩ := bind_eq_ok h
    obtain ⟨rfl, hcount⟩ := readCount_skip ht hframes hread
    obtain rfl := hargc.symm.trans hcount
    have ht₁ := running_skip (k := 1 + 1) ht
    obtain ⟨v, m₁, hread, hcallee⟩ := bind_eq_ok hcallee
    obtain ⟨rfl, hv⟩ := peek_eq_ok ht₁ hread
    cases hpeek.symm.trans hv
    exact ⟨_, Calls.entered (m := m.skip _) hcalls hw hfit ht₁ hpeek hcallee⟩
  | invoke hframes hinvoke hname hargc hpeek hinvokes =>
    have h := execute_of_instruction (frame?_eq_some ht hframes) hinvoke h
    obtain ⟨name', m₁, hread, hmember⟩ := bind_eq_ok h
    obtain ⟨rfl, hname'⟩ := readName_skip ht hframes hread
    obtain rfl := Option.some.inj (hname.symm.trans hname')
    obtain ⟨count, m₁, hread, hmember⟩ := bind_eq_ok hmember
    obtain ⟨rfl, hcount⟩ := readCount_skip ht hframes hread
    obtain rfl := hargc.symm.trans hcount
    have ht₁ := running_skip (k := 1 + 2 + 1) ht
    exact ⟨_, hinvokes.skip.entered (m := m.skip _) hw hfit ht₁ hpeek hmember⟩

end Hosts

/-! ## The first instruction -/

theorem values_of_poke {s s' : OperandStack} {v : Value} (h : s.poke argc v = .ok s') :
    ∃ args below, s.top argc = .ok args ∧ below.size = s.size - (argc + 1) ∧
      s'.values = below ++ #[v] ++ args := by
  obtain ⟨hlt, rfl⟩ := OperandStack.poke_eq_ok h
  have hlt : argc < s.values.size := hlt
  refine ⟨_, s.values.extract 0 (s.values.size - (argc + 1)), OperandStack.top_of_le hlt.le,
    by simp [OperandStack.size], ?_⟩
  have hslot : s.values.size - 1 - argc = s.values.size - (argc + 1) := by omega
  have hafter : s.values.size - argc = s.values.size - (argc + 1) + 1 := by omega
  have hin : s.values.size - (argc + 1) < s.values.toList.length := by
    rw [Array.length_toList]
    omega
  refine Array.ext' ?_
  simp only [OperandStack.size, hslot, hafter, Array.toList_setIfInBounds, Array.toList_append,
    Array.toList_extract, List.set_eq_take_append_cons_drop, if_pos hin]
  simp [List.take_of_length_le]

/-- As long as a fiber executes nothing it is at the first instruction of a function. -/
def Begins (host : HostFunctions) (id : Handle) (e : Entry) (f : Function) (args : Array Value)
    (m : Machine) : Prop :=
  ∀ m', ReflTransGen (Apart host id) m m' → m'.room ≤ Heap.slotLimit →
    ∃ w, m'.work? id = some w ∧ e.Starts f args w

theorem begins_of_tended (hh : host.Intrudes) {id : Handle} {row : List Handle} {e : Entry}
    {args : Array Value} {w : Work} (hn : Nested row m) (ht : Tended row m id)
    (hw : m.work? id = some w) (hs : e.Starts f args w) : Begins host id e f args m := by
  intro m' hm' hfit
  obtain ⟨row', haway⟩ := hn.away hh ht hm' hfit
  exact ⟨w, haway.work.trans hw, hs⟩

section Outcomes

variable {E : Entry → Prop} {h : Heap} {row : List Handle}

/-- A call has set a fiber apart for an async function. Nil stands in place of the callee and
the arguments, and the new fiber is the last one in line, with the function itself in slot
zero. -/
structure SetApart (argc : Nat) (r : Handle) (f : Function) (h : Heap) (t : Running)
    (m' : Machine) (id : Handle) (args : Array Value) : Prop where
  stack : ∃ stack, t.fiber.stack.replaceTop (argc + 1) .nil = .ok stack ∧
    m'.running = some ⟨t.id, { t.fiber with stack }⟩
  top : t.fiber.stack.top argc = .ok args
  fresh : h.get? id = none
  last : m'.ready.getLast? = some id
  ready : m'.stateOf? id = some .ready
  work : ∃ w, m'.work? id = some w ∧ Entry.Starts ⟨r, .ofHandle r, false⟩ f args w

theorem Entered.setApart (he : Entered argc E h t m') (hw : h.WellFormed)
    (hfit : m'.room ≤ Heap.slotLimit) (hn : Nested row m') (hE : ∀ e, E e → e.function = r)
    (hr : m'.heap.function r = .ok f) (hasync : f.isAsync = true) :
    ∃ id args, SetApart argc r f h t m' id args := by
  cases he with
  | @pushed e f' stack he _ hsync hfunction _ _ =>
    obtain rfl := Except.ok.inj ((hE e he ▸ hr).symm.trans hfunction)
    simp [hsync] at hasync
  | @spawned e f' stack args s body he _ _ hstack hrun htop hbody hframes hstate hlast hnew =>
    obtain ⟨hfresh, hat, hfunction⟩ := hnew hw hfit
    obtain rfl := Except.ok.inj ((hE e he ▸ hr).symm.trans hfunction)
    obtain rfl := hE e he
    have hne : ∀ u, m'.running = some u → u.id ≠ s := by
      rintro u hu rfl
      rw [hn.out u hu] at hat
      cases hat
    have hready : m'.stateOf? s = some .ready := by
      rw [stateOf?_eq, status?_of_fiberAt? hat hne, Option.map_some, ← hstate]
      rfl
    have hid : m'.runningId? ≠ some s := fun hid => by
      obtain ⟨u, hu, hus⟩ := Option.map_eq_some_iff.mp hid
      exact hne u hu hus
    have hwork := (work?_parked hid).trans (parkedWork?_of_fiberAt? hat)
    refine ⟨s, args, ⟨stack, hstack, hrun⟩, htop, hfresh, hlast, hready, _, hwork, #[], [], hframes, ?_⟩
    rw [Array.empty_append]
    exact hbody

variable (hh : host.Intrudes)
include hh

/-- A function that runs at once is entered with its slot zero and its arguments. -/
theorem Entered.begins (he : Entered argc E h t m') (hw : h.WellFormed)
    (hfit : m'.room ≤ Heap.slotLimit) (hn : Nested row m') (hE : ∀ e, E e → e.function = r)
    (hr : m'.heap.function r = .ok f) (hsync : f.isAsync = false) :
    ∃ e args, E e ∧ t.fiber.stack.top argc = .ok args ∧ Begins host t.id e f args m' := by
  cases he with
  | @pushed e f' stack he _ _ hfunction hpoke hrun =>
    obtain rfl := Except.ok.inj ((hE e he ▸ hr).symm.trans hfunction)
    obtain ⟨args, below, hargs, hbelow, hvalues⟩ := values_of_poke hpoke
    have hid := runningId?_some hrun
    have hwork := work?_running hrun
    exact ⟨e, args, he, hargs, begins_of_tended hh hn (.running hid) hwork
      ⟨below, t.fiber.frames, by rw [hbelow]; rfl, hvalues⟩⟩
  | @spawned e f' stack args s body he _ hasync _ _ _ _ _ _ _ hnew =>
    obtain ⟨-, -, hfunction⟩ := hnew hw hfit
    obtain rfl := Except.ok.inj ((hE e he ▸ hr).symm.trans hfunction)
    simp [hsync] at hasync

/-- Nothing changes what an async function is entered with. -/
theorem SetApart.begins {id : Handle} {args : Array Value} (ha : SetApart argc r f h t m' id args)
    (hn : Nested row m') : Begins host id ⟨r, .ofHandle r, false⟩ f args m' := by
  obtain ⟨w, hw, hs⟩ := ha.work
  exact begins_of_tended hh hn (.ready ha.ready (List.mem_of_getLast? ha.last)) hw hs

end Outcomes

/-- An instruction of a run that calls a function and succeeds. -/
structure CallOf (host : HostFunctions) (route : Route) (r : Handle) (f : Function) (argc : Nat)
    (t : Running) (m m' : Machine) : Prop where
  run : ∃ begun own, begun.heap.WellFormed ∧ begun.running = none ∧ Run host begun own m
  running : m.running = some t
  calling : Calling m t argc route r
  function : m.heap.function r = .ok f
  succeeds : instruction host m = .ok () m'
  room_le : m'.room ≤ Heap.slotLimit

theorem CallOf.entered (hh : host.Intrudes) (hc : CallOf host route r f argc t m m') :
    ∃ k, Entered argc (route.Enters r m.heap m'.heap) m.heap (t.skip k) m' ∧
      m'.heap.function r = .ok f ∧ m.heap.WellFormed ∧ ∃ row, Nested row m' := by
  obtain ⟨⟨begun, own, hbegun, hrun, hr⟩, ht, hcalling, hf, h, hfit⟩ := hc
  have hstep : Steps host m m' := .instruction h
  obtain ⟨row, hn, -⟩ := hr.nested hh hbegun hrun ((hstep.idle hh).room_le.trans hfit)
  obtain ⟨row', hs⟩ := hn.step hh hstep hfit
  have : ∀ id args, Makes Tends (host.call id args) := fun id args =>
    (hh id args).mono fun _ _ hi => hi.rests.toTends
  obtain ⟨k, hentered, hk⟩ := hcalling.entered hn.wellFormed hfit ht h
  exact ⟨k, hentered, hk.function_eq hf, hn.wellFormed, row', hs.nested⟩

/-- What holds of every call of a function in every run, as long as the slots of the heap can
be told apart. A function that runs at once finds in slot zero what belongs there on the
route of the call, and the arguments behind it. An async function finds the arguments, too,
but itself in slot zero: the receiver and the new instance are not passed on. Nothing
changes that, whatever runs before the first instruction of the function. -/
structure EntryGuarantees (host : HostFunctions) : Prop where
  runs : ∀ {route r f argc t m m'}, CallOf host route r f argc t m m' → f.isAsync = false →
    ∃ zero args, route.Zero r m.heap m'.heap zero ∧ t.fiber.stack.top argc = .ok args ∧
      Begins host t.id ⟨r, zero, route.constructs⟩ f args m'
  spawns : ∀ {route r f argc t m m'}, CallOf host route r f argc t m m' → f.isAsync = true →
    ∃ args id, t.fiber.stack.top argc = .ok args ∧ m.heap.get? id = none ∧
      Begins host id ⟨r, .ofHandle r, false⟩ f args m'

theorem entryGuarantees (hh : host.Intrudes) : EntryGuarantees host where
  runs {route r f argc t m m'} hc hsync := by
    obtain ⟨k, hentered, hr, hw, row, hn⟩ := hc.entered hh
    obtain ⟨e, args, he, hargs, hbegins⟩ :=
      hentered.begins hh hw hc.room_le hn (fun e he => he.function) hr hsync
    obtain ⟨rfl, hconstructs, hzero⟩ := he
    refine ⟨e.zero, args, hzero, hargs, ?_⟩
    rwa [← hconstructs]
  spawns {route r f argc t m m'} hc hasync := by
    obtain ⟨k, hentered, hr, hw, row, hn⟩ := hc.entered hh
    obtain ⟨id, args, hapart⟩ :=
      hentered.setApart hw hc.room_le hn (fun e he => he.function) hr hasync
    exact ⟨args, id, hapart.top, hapart.fresh, hapart.begins hh hn⟩

/-- A program that gives a class an async method and calls it for a new instance. -/
def asyncCaller : Prototype where
  name := "script"
  arity := 0
  isAsync := false
  code := #[Opcode.newClass.toByte, 0, 0, Opcode.constant.toByte, 1, Opcode.method.toByte, 0, 2,
    Opcode.call.toByte, 0, Opcode.invoke.toByte, 0, 2, 0, Opcode.ret.toByte]
  constants := [.text "C", .function ⟨"m", 0, true, #[Opcode.ret.toByte], [], #[]⟩, .text "m"]
  lines := #[]

/-- The machine in which the program has made its instance. -/
def instanceMade : Machine :=
  (after (instruction Probe.host))^[4] (after (start asyncCaller) (new {}))

/-- What the newest fiber that has not started has in slot zero. -/
def newestZero? (m : Machine) : Option Value :=
  (m.ready.getLast?.bind (parkedWork? m.heap)).bind fun w => w.stack.get? 0

theorem newestZero_instanceMade : (match instruction Probe.host instanceMade with
    | .ok _ m' => m'.newestZero?.bind m'.heap.kindOf?
    | .error _ _ => none) = some .function := by decide +kernel

/-- The method is called for an instance, but finds a function in slot zero. -/
theorem entryGuarantees_probe : EntryGuarantees Probe.host ∧
    ((instanceMade.running.bind (·.fiber.stack.get? 1)).bind instanceMade.heap.kindOf? =
      some .instanceOf) ∧
    ∃ m', instruction Probe.host instanceMade = .ok () m' ∧
      m'.newestZero?.bind m'.heap.kindOf? = some .function := by
  refine ⟨entryGuarantees intrudes_probe, by decide +kernel, ?_⟩
  have hzero := newestZero_instanceMade
  cases h : instruction Probe.host instanceMade with
  | error e m' =>
    rw [h] at hzero
    cases hzero
  | ok _ m' =>
    rw [h] at hzero
    exact ⟨m', rfl, hzero⟩

end Machine

end FiberMachine
