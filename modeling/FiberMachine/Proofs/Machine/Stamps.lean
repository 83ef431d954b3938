import FiberMachine.Proofs.Machine.Histories
import FiberMachine.Proofs.Machine.Modest

/-!
# Stamped calls

A call is stamped when it runs the code of its function for the module that the function
belongs to. Calls are stamped when they begin, on whatever fiber, and fibers that take turns
carry the stamps along. Apart from definitions, imports and the end of a module, nothing that a
machine does makes or changes a module or a function.
-/

namespace FiberMachine

open Relation (ReflTransGen)

theorem Makes.preorder {σ α : Type} {R : σ → σ → Prop} [IsPreorder σ R] {x : EStateM Fault σ α}
    (hx : Makes R x) (s : σ) : R s (after x s) := by
  have hrow := hx.row s
  rwa [Relation.reflTransGen_eq_self] at hrow

/-- A call runs the code of its function, for the module that the function belongs to. -/
def Frame.Stamped (h : Heap) (f : Frame) : Prop :=
  ∃ fn, h.function f.function = .ok fn ∧ f.chunk = fn.chunk ∧ f.scope = fn.module

namespace Heap

variable {h h' : Heap} {r : Handle} {fn : Function}

/-- The functions are all there, and none has changed. -/
def FunctionsRemain (h h' : Heap) : Prop :=
  ∀ r fn, h.function r = .ok fn → h'.function r = .ok fn

theorem Respects.function_eq (hr : Respects h h') :
    h'.function r = .ok fn ↔ h.function r = .ok fn := by
  simp only [function_eq_ok]
  refine exists_congr fun o => and_congr_left fun hb => hr r o ?_
  rw [Object.kind, hb]
  rfl

theorem Respects.functionsRemain (hr : Respects h h') : FunctionsRemain h h' :=
  fun _ _ hf => hr.function_eq.mpr hf


theorem module_eq_ok {M : Handle} {id : Handle × Option Handle} :
    h.module M = .ok id ↔ ∃ o, h.get? M = some o ∧ o.body = .module id.1 id.2 := by
  simp only [Heap.module, Heap.get]
  cases h.get? M with
  | none => simp
  | some o => cases hb : o.body <;> simp [hb, Prod.ext_iff]


theorem Remains.functionsRemain (hr : Remains h h') : FunctionsRemain h h' :=
  fun _ _ hf => hr.function_eq hf

end Heap

theorem Frame.Stamped.mono {h h' : Heap} {f : Frame} (hf : f.Stamped h) (hs : h.FunctionsRemain h') :
    f.Stamped h' := by
  obtain ⟨fn, hfn, hcall⟩ := hf
  exact ⟨fn, hs _ _ hfn, hcall⟩

namespace Machine

variable {α : Type} {m m₁ m' : Machine} {u : Unit}

/-- Every call that has begun is stamped. -/
structure Stamped (m : Machine) : Prop where
  running : ∀ t, m.running = some t → ∀ f ∈ t.fiber.frames, f.Stamped m.heap
  parked : ∀ r b, m.heap.fiberAt? r = some (some b) → ∀ f ∈ b.frames, f.Stamped m.heap

/-- Calls that have begun are stamped if they were before. -/
structure Stamps (m m' : Machine) : Prop extends Tends m m' where
  stamped : m.heap.WellFormed → m'.room ≤ Heap.slotLimit → m.Stamped → m'.Stamped

/-- No function is new besides, and no module. -/
structure Carries (m m' : Machine) : Prop extends Stamps m m' where
  functions : m.heap.WellFormed → m'.room ≤ Heap.slotLimit →
    ∀ r fn, m'.heap.function r = .ok fn → m.heap.function r = .ok fn
  importers : m.heap.WellFormed → m'.room ≤ Heap.slotLimit →
    ∀ M id, m'.heap.module M = .ok id → m.heap.module M = .ok id

/-- Nor has a module changed. -/
structure Modest (m m' : Machine) : Prop extends Carries m m' where
  modules : m.heap.WellFormed → m'.room ≤ Heap.slotLimit →
    ∀ M o, m'.heap.get? M = some o → o.kind = .module → m.heap.get? M = some o

namespace Stamps

theorem trans (h : Stamps m m₁) (h' : Stamps m₁ m') : Stamps m m' where
  toTends := h.toTends.trans h'.toTends
  stamped hw hfit hs := by
    have hfit₁ := h'.room_le.trans hfit
    exact h'.stamped (h.wellFormed hw hfit₁) hfit (h.stamped hw hfit₁ hs)

/-- Only the frames of the running fiber matter where the heap stays as it is. -/
theorem of_frames (hh : m'.heap = m.heap) (hf : m.Stamped →
    ∀ t, m'.running = some t → ∀ f ∈ t.fiber.frames, f.Stamped m.heap) : Stamps m m' where
  toTends := .of_heap_eq hh
  stamped _ _ hs := by
    refine ⟨?_, ?_⟩ <;> rw [hh]
    · exact hf hs
    · exact hs.parked

theorem of_eq (hh : m'.heap = m.heap) (hr : m'.running = m.running) : Stamps m m' :=
  of_frames hh fun hs t ht => hs.running t (hr ▸ ht)

theorem refl (m : Machine) : Stamps m m := .of_eq rfl rfl

instance : IsPreorder Machine Stamps where
  refl := refl
  trans _ _ _ := trans

/-- What matters of the heap are its functions and its fibers. -/
theorem of_heap {h : Heap} (hr : ReflTransGen Heap.Move m.heap h)
    (hf : m.heap.WellFormed → h.slots.size ≤ Heap.slotLimit → m.heap.FunctionsRemain h) :
    Stamps m { m with heap := h } where
  room_le := Heap.row_size_le hr
  wellFormed := Heap.row_wellFormed hr
  stamped hw hfit hs := by
    have hfibers := Heap.row_sameFibers hr hw hfit
    refine ⟨fun t ht f hf' => (hs.running t ht f hf').mono (hf hw hfit), fun r b hb f hf' => ?_⟩
    exact (hs.parked r b (hfibers.fiberAt r ▸ hb) f hf').mono (hf hw hfit)

end Stamps

theorem stamps_after (x : Act α) [hx : Makes Stamps x] (m : Machine) : Stamps m (after x m) :=
  hx.preorder m

namespace Carries

theorem trans (h : Carries m m₁) (h' : Carries m₁ m') : Carries m m' where
  toStamps := h.toStamps.trans h'.toStamps
  functions hw hfit r fn hf := by
    have hfit₁ := h'.room_le.trans hfit
    exact h.functions hw hfit₁ r fn (h'.functions (h.wellFormed hw hfit₁) hfit r fn hf)
  importers hw hfit M id hid := by
    have hfit₁ := h'.room_le.trans hfit
    exact h.importers hw hfit₁ M id (h'.importers (h.wellFormed hw hfit₁) hfit M id hid)

theorem of_frames (hh : m'.heap = m.heap) (hf : m.Stamped →
    ∀ t, m'.running = some t → ∀ f ∈ t.fiber.frames, f.Stamped m.heap) : Carries m m' where
  toStamps := .of_frames hh hf
  functions _ _ _ _ := hh ▸ id
  importers _ _ _ _ := hh ▸ id

theorem of_eq (hh : m'.heap = m.heap) (hr : m'.running = m.running) : Carries m m' :=
  of_frames hh fun hs t ht => hs.running t (hr ▸ ht)

theorem refl (m : Machine) : Carries m m := .of_eq rfl rfl

instance : IsPreorder Machine Carries where
  refl := refl
  trans _ _ _ := trans

theorem of_heap {h : Heap} (hr : ReflTransGen Heap.Move m.heap h)
    (hf : m.heap.WellFormed → h.slots.size ≤ Heap.slotLimit →
      ∀ r fn, h.function r = .ok fn ↔ m.heap.function r = .ok fn)
    (hi : m.heap.WellFormed → h.slots.size ≤ Heap.slotLimit →
      ∀ M id, h.module M = .ok id → m.heap.module M = .ok id) :
    Carries m { m with heap := h } where
  toStamps := .of_heap hr fun hw hfit r fn => (hf hw hfit r fn).mpr
  functions hw hfit r fn := (hf hw hfit r fn).mp
  importers := hi

end Carries

theorem carries_after (x : Act α) [hx : Makes Carries x] (m : Machine) : Carries m (after x m) :=
  hx.preorder m

instance (priority := low) (x : Act α) [hx : Makes Carries x] : Makes Stamps x :=
  hx.mono fun _ _ h => h.toStamps

instance (priority := low) (x : Act α) [hx : Makes Modest x] : Makes Carries x :=
  hx.mono fun _ _ h => h.toCarries

namespace Modest

/-- What code there is was there before. -/
theorem of_stamps (hs : Stamps m m') (hc : m.heap.WellFormed → m'.room ≤ Heap.slotLimit →
    ∀ r o, m'.heap.get? r = some o → o.kind = .function ∨ o.kind = .module →
      m.heap.get? r = some o) : Modest m m' where
  toStamps := hs
  functions hw hfit r fn hf := by
    obtain ⟨o, ho, hb⟩ := Heap.function_eq_ok.mp hf
    exact Heap.function_eq_ok.mpr ⟨o, hc hw hfit r o ho (.inl (by rw [Object.kind, hb]; rfl)), hb⟩
  importers hw hfit M id hid := by
    obtain ⟨o, ho, hb⟩ := Heap.module_eq_ok.mp hid
    exact Heap.module_eq_ok.mpr ⟨o, hc hw hfit M o ho (.inr (by rw [Object.kind, hb]; rfl)), hb⟩
  modules hw hfit M o ho hk := hc hw hfit M o ho (.inr hk)

theorem trans (h : Modest m m₁) (h' : Modest m₁ m') : Modest m m' where
  toCarries := h.toCarries.trans h'.toCarries
  modules hw hfit M o ho hk := by
    have hfit₁ := h'.room_le.trans hfit
    exact h.modules hw hfit₁ M o (h'.modules (h.wellFormed hw hfit₁) hfit M o ho hk) hk

theorem of_frames (hh : m'.heap = m.heap) (hf : m.Stamped →
    ∀ t, m'.running = some t → ∀ f ∈ t.fiber.frames, f.Stamped m.heap) : Modest m m' where
  toCarries := .of_frames hh hf
  modules _ _ _ _ ho _ := hh ▸ ho

theorem of_eq (hh : m'.heap = m.heap) (hr : m'.running = m.running) : Modest m m' :=
  of_frames hh fun hs t ht => hs.running t (hr ▸ ht)

theorem refl (m : Machine) : Modest m m := .of_eq rfl rfl

instance : IsPreorder Machine Modest where
  refl := refl
  trans _ _ _ := trans

/-- The running fiber has no frame that it did not have before. -/
theorem of_frames_subset {t : Running} {b : Fiber} (ht : m.running = some t)
    (hb : ∀ f ∈ b.frames, f ∈ t.fiber.frames) :
    Modest m { m with running := some ⟨t.id, b⟩ } := by
  refine .of_frames rfl fun hs t' ht' f hf => ?_
  cases ht'
  exact hs.running t ht f (hb f hf)

theorem of_heap {h : Heap} (hr : ReflTransGen Heap.Modest m.heap h) :
    Modest m { m with heap := h } := by
  have hs : Stamps m { m with heap := h } := .of_heap (Heap.row_of_modest hr) fun hw hfit =>
    (Heap.row_respects hr hw hfit).functionsRemain
  refine .of_stamps hs fun hw hfit r o ho hk => (Heap.row_respects hr hw hfit r o ?_).mp ho
  rcases hk with hk | hk <;> rw [hk] <;> rfl

end Modest

theorem modest_after (x : Act α) [hx : Makes Modest x] (m : Machine) : Modest m (after x m) :=
  hx.preorder m

/-! ## Operands, frames and objects -/

instance (x : Heap.Act α) [hx : Makes Heap.Modest x] : Makes Modest (liftM x : Act α) := by
  refine .single fun m => ?_
  rw [after_lift]
  exact .of_heap (hx.row m.heap)

instance (s : String) : Makes Modest (intern s) := by
  unfold intern
  infer_instance

theorem modest_alloc {b : Body} (ht : b.kind ≠ .text) (hb : ¬ b.kind.isSealed) :
    Makes Modest (alloc b) := by
  have := Heap.modest_alloc ht hb
  unfold alloc
  infer_instance

instance (items : Array Value) : Makes Modest (alloc (.array items)) := modest_alloc nofun nofun

instance (entries : Table Value Value) : Makes Modest (alloc (.dictionary entries)) :=
  modest_alloc nofun nofun

instance (span : Span) : Makes Modest (alloc (.span span)) := modest_alloc nofun nofun

instance (name : Handle) : Makes Modest (alloc (.classObject name)) := modest_alloc nofun nofun

instance (receiver : Value) (method : Handle) :
    Makes Modest (alloc (.boundMethod receiver method)) := modest_alloc nofun nofun

instance (data : UserData) : Makes Modest (alloc (.userData data)) := modest_alloc nofun nofun

instance (n : Native) : Makes Modest (newNative n) := by
  have : Makes Modest (alloc (.native n)) := modest_alloc nofun nofun
  unfold newNative
  exact .parts

instance (r : Handle) (f : Object → Object) [Heap.Plain f] [Heap.Passes f] :
    Makes Modest (change r f) := by
  unfold change
  infer_instance

/-- The kind of the object decides what may change in it. -/
theorem modest_change {r : Handle} {f : Object → Object} [Heap.Plain f]
    (hf : ∀ o, m.heap.get? r = some o → o.kind.isSealed → f o = o) : Modest m (after (change r f) m) := by
  unfold change
  rw [after_lift]
  exact .of_heap (Heap.row_change hf)

instance (f : Host → α × Host) : Makes Modest (onHost f) := .single fun _ => .of_eq rfl rfl

theorem modest_changeFiber {g : Fiber → Fiber} (hg : ∀ b, ∀ f ∈ (g b).frames, f ∈ b.frames) :
    Makes Modest (changeFiber g) := by
  refine .single fun m => ?_
  simp only [after, changeFiber]
  cases ht : m.running with
  | none => exact .refl m
  | some t => exact .of_frames_subset ht (hg t.fiber)

instance (stack : Fiber → OperandStack) :
    Makes Modest (changeFiber fun b => { b with stack := stack b }) :=
  modest_changeFiber fun _ _ hf => hf

instance (caller : Option Handle) : Makes Modest (changeFiber fun b => { b with caller }) :=
  modest_changeFiber fun _ _ hf => hf

instance : Makes Modest (changeFiber fun b => { b with frames := b.frames.tail }) :=
  modest_changeFiber fun _ _ hf => List.mem_of_mem_tail hf

instance (f : OperandStack → Except Fault OperandStack) : Makes Modest (changeStack f) := by
  refine .single fun m => ?_
  simp only [after, changeStack]
  rcases ht : m.running with _ | ⟨id, stack, frames, caller, kind, state, module⟩
  · exact .refl m
  · simp only
    cases f stack with
    | error e => exact .refl m
    | ok stack' => exact .of_frames_subset ht fun _ hf => hf

instance (v : Value) : Makes Modest (push v) := by
  unfold push
  infer_instance

instance (distance : Nat) (v : Value) : Makes Modest (poke distance v) := by
  unfold poke
  infer_instance

instance (count : Nat) (v : Value) : Makes Modest (replaceTop count v) := by
  unfold replaceTop
  infer_instance

instance : Makes Modest pop := by
  refine .single fun m => ?_
  simp only [after, pop]
  rcases ht : m.running with _ | ⟨id, stack, frames, caller, kind, state, module⟩
  · exact .refl m
  · simp only
    cases stack.pop with
    | error e => exact .refl m
    | ok p => exact .of_frames_subset ht fun _ hf => hf

/-- A frame that has moved on in its code is the same call. -/
theorem modest_moved {t : Running} {g : Frame} {rest : List Frame} (ht : m.running = some t)
    (hg : t.fiber.frames = g :: rest) (stack : OperandStack) (ip : Nat) :
    Modest m
      { m with running := some ⟨t.id, { t.fiber with stack, frames := { g with ip } :: rest }⟩ } := by
  refine .of_frames rfl fun hs t' ht' f hf => ?_
  cases ht'
  have hframes := hs.running t ht
  rw [hg] at hframes
  rcases List.mem_cons.mp hf with rfl | hf
  · exact hframes g (List.mem_cons_self ..)
  · exact hframes f (List.mem_cons_of_mem _ hf)

instance : Makes Modest readByte := by
  refine .single fun m => ?_
  simp only [after, readByte]
  rcases ht : m.running with _ | ⟨id, stack, _ | ⟨g, rest⟩, caller, kind, state, module⟩
  · exact .refl m
  · exact .refl m
  · simp only
    cases g.chunk.code[g.ip]? with
    | none => exact .refl m
    | some byte => exact modest_moved ht rfl stack (g.ip + 1)

instance : Makes Modest readCount := by
  unfold readCount
  exact .parts

instance : Makes Modest readIndex := by
  unfold readIndex readShort
  exact .parts

instance : Makes Modest readName := by
  unfold readName
  exact .parts

instance (target : Nat) : Makes Modest (jumpTo target) := by
  refine .single fun m => ?_
  simp only [jumpTo, after_bind]
  cases hframe : frame m with
  | error e m' => exact after_error hframe ▸ modest_after frame m
  | ok g m' =>
    obtain ⟨rfl, t, rest, ht, hframes⟩ := frame_eq_ok hframe
    dsimp only
    split
    · simp only [after, changeFiber, ht, hframes, List.tail_cons]
      exact modest_moved ht hframes t.fiber.stack target
    · exact .refl m'

instance (distance : Nat) : Makes Modest (jumpForward distance) := by
  unfold jumpForward
  exact .parts

instance (distance : Nat) : Makes Modest (jumpBack distance) := by
  unfold jumpBack
  exact .parts

instance (f : Value → Value → Act Value) [hf : ∀ a b, Makes Modest (f a b)] :
    Makes Modest (binary f) := by
  unfold binary
  exact .parts

instance (start stop : Value) : Makes Modest (createSpan start stop) := by
  unfold createSpan
  exact .parts

instance (receiver : Value) (name : Handle) : Makes Modest (property receiver name) := by
  unfold property
  exact .parts

instance (operation : String) (target : Value) (name : Handle) (v : Value) :
    Makes Modest (setField operation target name v) := by
  unfold setField setFieldChange
  exact .parts

/-- Methods go into classes only. -/
instance (name : Handle) : Makes Modest (defineMethod name) := by
  unfold defineMethod
  refine .bind inferInstance fun method => .bind inferInstance fun cls => ⟨fun m => ?_⟩
  simp only [after_bind, get_apply]
  split
  · rename_i r hr hk
    have hclass : ∀ o, m.heap.get? r = some o → o.kind = .classObject := fun o ho => by
      simpa [Heap.kindOf?, hr, ho] using hk
    have hchange : Modest m (after (change r (Heap.insertMember name method)) m) :=
      modest_change fun o ho hsealed => by rw [hclass o ho] at hsealed; cases hsealed
    rw [after_bind]
    cases hc : change r (Heap.insertMember name method) m with
    | error e m₁ => exact .single (after_error hc ▸ hchange)
    | ok _ m₁ => exact .head (after_ok hc ▸ hchange) (Makes.row (x := discard pop) m₁)
  · exact .refl

/-! ## Fibers and calls -/

/-- All objects but fibers are as they were. -/
theorem get?_withFiber {h : Heap} {r q : Handle} {b : Option Fiber} {o : Object}
    (ho : o.kind ≠ .fiber) : (h.update r (withFiber b)).get? q = some o ↔ h.get? q = some o := by
  have hsame : ∀ p : Object, p.kind ≠ .fiber → withFiber b p = p := fun p hp => by
    unfold withFiber
    split
    · rename_i hbody
      exact absurd (by rw [Object.kind, hbody]; rfl) hp
    · rfl
  rw [Heap.get?_update]
  split
  · rename_i hq
    rw [hq, Option.map_eq_some_iff]
    constructor
    · rintro ⟨p, hp, rfl⟩
      rw [kind_withFiber] at ho
      rw [hsame p ho, hp]
    · intro hp
      exact ⟨o, hp, hsame o ho⟩
  · rfl

/-- The body of one fiber is put into the heap or taken out of it. -/
theorem Stamps.of_withFiber {r : Handle} {b : Option Fiber}
    (hh : m'.heap = m.heap.update r (withFiber b))
    (hrun : m.Stamped → ∀ t, m'.running = some t → ∀ f ∈ t.fiber.frames, f.Stamped m.heap)
    (hb : m.Stamped → ∀ c ∈ b, ∀ f ∈ c.frames, f.Stamped m.heap) : Stamps m m' where
  room_le := by simp only [room, hh, Heap.size_update, Nat.le_refl]
  wellFormed hw _ := hh ▸ wellFormed_withFiber hw r b
  stamped _ _ hs := by
    have hf : m.heap.FunctionsRemain m'.heap := fun q fn hfn => by
      obtain ⟨o, ho, hbody⟩ := Heap.function_eq_ok.mp hfn
      rw [hh]
      exact Heap.function_eq_ok.mpr
        ⟨o, (get?_withFiber (by simp [Object.kind, hbody, Body.kind])).mpr ho, hbody⟩
    refine ⟨fun t ht f hf' => (hrun hs t ht f hf').mono hf, fun q c hc f hf' => ?_⟩
    refine Frame.Stamped.mono ?_ hf
    rw [hh, fiberAt?_withFiber] at hc
    split at hc
    · obtain ⟨d, -, hd⟩ := Option.map_eq_some_iff.mp hc
      exact hb hs c hd f hf'
    · exact hs.parked q c hc f hf'

theorem Modest.of_withFiber {r : Handle} {b : Option Fiber}
    (hh : m'.heap = m.heap.update r (withFiber b))
    (hrun : m.Stamped → ∀ t, m'.running = some t → ∀ f ∈ t.fiber.frames, f.Stamped m.heap)
    (hb : m.Stamped → ∀ c ∈ b, ∀ f ∈ c.frames, f.Stamped m.heap) : Modest m m' := by
  refine .of_stamps (.of_withFiber hh hrun hb) fun _ _ q o ho hk => ?_
  rw [hh] at ho
  exact (get?_withFiber (by rcases hk with hk | hk <;> rw [hk] <;> decide)).mp ho

theorem mem_frames_park {state : FiberState} {b : Fiber} {f : Frame}
    (hf : f ∈ (park state b).frames) : f ∈ b.frames := by
  cases state <;> first | exact hf | cases hf

instance (state : FiberState) : Makes Modest (leave state) := by
  refine .single fun m => ?_
  cases ht : m.running with
  | none =>
    rw [after_ok (leave_nobody ht state)]
    exact .refl m
  | some t =>
    rw [after_leave ht]
    split
    · refine .of_withFiber rfl nofun fun hs c hc f hf => ?_
      cases hc
      exact hs.running t ht f (mem_frames_park hf)
    · exact .of_frames rfl nofun

instance (id : Handle) : Makes Modest (enter id) := by
  refine .single fun m => ?_
  rw [after_enter]
  split
  · rename_i b hb
    refine .of_withFiber rfl (fun hs t ht f hf => ?_) nofun
    cases ht
    exact hs.parked id b hb f hf
  · exact .refl m

instance (running : Machine → Option Handle) (ready loading : Machine → List Handle)
    (events : Machine → List Event) (timers : Machine → Timers) :
    Makes Modest (modify fun m : Machine => { m with
      root := running m, ready := ready m, loading := loading m
      events := events m, timers := timers m }) := .single fun _ => .of_eq rfl rfl

instance (f : Timers → Timers × List Event) : Makes Modest (fire f) :=
  .single fun _ => .of_eq rfl rfl

instance (target : Handle) : Makes Modest (resume target) := by
  unfold resume
  exact .parts

instance (state : FiberState) : Makes Modest (returnToCaller state) := by
  unfold returnToCaller
  exact .parts

instance (delay : Duration) : Makes Modest (sleep delay) := by
  unfold sleep
  exact .parts

instance (id : Handle) : Makes Modest (depart id) := by
  unfold depart
  exact .parts

theorem newFiber_eq_error {kind : FiberKind} {function : Handle} {args : List Value}
    {caller module : Option Handle} {e : Fault}
    (h : newFiber kind function args caller module m = .error e m') : m' = m := by
  simp only [newFiber, bind_apply, get_apply, except_apply] at h
  cases hf : m.heap.function function with
  | error fault =>
    rw [hf] at h
    cases h
    rfl
  | ok f =>
    simp only [hf] at h
    split at h
    · cases h
    · rename_i heq
      split at heq <;> cases heq
      cases h
      rfl

theorem stamps_withNewFiber {b : Fiber} (hb : ∀ f ∈ b.frames, f.Stamped m.heap) :
    Stamps m (m.withNewFiber b) where
  room_le := Heap.size_le_alloc ..
  wellFormed hw hfit := hw.alloc nofun hfit
  stamped hw hfit hs := by
    have hcode := (Heap.Remains.alloc hw.toArena (.fiber (some b)) hfit).functionsRemain
    refine ⟨fun t ht f hf => (hs.running t ht f hf).mono hcode, fun r c hc f hf => ?_⟩
    refine Frame.Stamped.mono ?_ hcode
    rw [fiberAt?_newFiber hw hfit] at hc
    split at hc
    · cases hc
      exact hb f hf
    · exact hs.parked r c hc f hf

theorem modest_withNewFiber {b : Fiber} (hb : ∀ f ∈ b.frames, f.Stamped m.heap) :
    Modest m (m.withNewFiber b) := by
  refine .of_stamps (stamps_withNewFiber hb) fun hw hfit r o ho hk => ?_
  rw [(allocated_newFiber hw hfit).get?] at ho
  split at ho
  · cases ho
    rcases hk with hk | hk <;> cases hk
  · exact ho

theorem stamped_enter {h : Heap} {r : Handle} {fn : Function} (hfn : h.function r = .ok fn)
    (base : Nat) (constructs : Bool) :
    Frame.Stamped h { Frame.enter r fn.chunk base fn.module with constructs } := ⟨fn, hfn, rfl, rfl⟩

/-- The first call of a new fiber is stamped. -/
instance (kind : FiberKind) (function : Handle) (args : List Value)
    (caller module : Option Handle) :
    Makes Modest (newFiber kind function args caller module) := by
  refine .single fun m => ?_
  cases hnew : newFiber kind function args caller module m with
  | error e m' =>
    rw [after_error hnew, newFiber_eq_error hnew]
    exact .refl m
  | ok r m' =>
    rw [after_ok hnew]
    obtain ⟨fn, stack, hfn, -, rfl, -⟩ := newFiber_eq_ok_body hnew
    refine modest_withNewFiber fun f hf => ?_
    obtain rfl := List.mem_singleton.mp hf
    exact stamped_enter hfn 0 false

/-- What a call that is reached runs is reached as well. -/
theorem stamped_collected (hw : m.heap.WellFormed) {f : Frame} (hf : f.Stamped m.heap)
    (hr : m.heap.isLive f.function → Heap.Reached m.heap m.roots f.function) :
    f.Stamped m.collected.heap := by
  obtain ⟨fn, hfn, hcall⟩ := hf
  obtain ⟨o, ho, hb⟩ := Heap.function_eq_ok.mp hfn
  have hreached := hr (Heap.isLive_iff.mpr ⟨o, ho⟩)
  exact ⟨fn, Heap.function_eq_ok.mpr ⟨o, (Heap.get?_collect_of_reached hw hreached).trans ho, hb⟩, hcall⟩

theorem mem_references {b : Fiber} {f : Frame} (hf : f ∈ b.frames) : f.function ∈ b.references :=
  List.mem_append_right _ (List.mem_flatMap.mpr ⟨f, hf, List.mem_cons_self ..⟩)

theorem stamps_collected (m : Machine) : Stamps m m.collected where
  toTends := tends_collected m
  stamped hw _ hs := by
    refine ⟨fun t ht f hf => ?_, fun r b hb f hf => ?_⟩
    · refine stamped_collected hw (hs.running t ht f hf) fun hl => .root ?_ hl
      exact roots_running ht _ (List.mem_cons_of_mem _ (mem_references hf))
    · obtain ⟨o, ho, hbody⟩ := Option.bind_eq_some_iff.mp hb
      have hreached := (Heap.isLive_collect hw _ r).mp (Heap.isLive_iff.mpr ⟨o, ho⟩)
      have ho := Heap.get?_of_get?_collect hw ho
      have hfiber : m.heap.fiberAt? r = some (some b) := Option.bind_eq_some_iff.mpr ⟨o, ho, hbody⟩
      refine stamped_collected hw (hs.parked r b hfiber f hf) fun hl => .step hreached ho ?_ hl
      rw [Body.fiber?_eq_some_iff] at hbody
      rw [Object.references, hbody]
      exact List.mem_append_right _ (mem_references hf)

theorem modest_collected (m : Machine) : Modest m m.collected :=
  .of_stamps (stamps_collected m) fun hw _ _ _ ho _ => Heap.get?_of_get?_collect hw ho

instance : Makes Modest collect := .single modest_collected

instance (function : Handle) (argc : Nat) : Makes Modest (spawn function argc) := by
  unfold spawn
  exact .parts

/-- A function is called for the module that it belongs to, wherever the call is made. -/
theorem modest_pushFrame {r : Handle} {fn : Function} (hfn : m.heap.function r = .ok fn)
    (base : Nat) (constructs : Bool) :
    Modest m (after (changeFiber fun b => { b with frames :=
      { Frame.enter r fn.chunk base fn.module with constructs } :: b.frames }) m) := by
  simp only [after, changeFiber]
  cases ht : m.running with
  | none => exact .refl m
  | some t =>
    refine .of_frames rfl fun hs t' ht' f hf => ?_
    cases ht'
    rcases List.mem_cons.mp hf with rfl | hf
    · exact stamped_enter hfn base constructs
    · exact hs.running t ht f hf

instance (r : Handle) (argc : Nat) (constructs : Bool) :
    Makes Modest (callFunction r argc constructs) := by
  refine ⟨fun m => ?_⟩
  simp only [callFunction, after_bind, get_apply, except_apply]
  cases hfn : m.heap.function r with
  | error e => exact .refl
  | ok fn =>
    dsimp only
    split
    · exact .refl
    · split
      · exact Makes.row m
      · rw [after_bind]
        cases hlimit : frameLimitCheck m with
        | error e m' => exact after_error hlimit ▸ Makes.row m
        | ok u m' =>
          obtain ⟨rfl, -⟩ := frameLimitCheck_eq_ok hlimit
          simp only [after_bind, fiber]
          cases m'.running with
          | none => exact .refl
          | some t =>
            dsimp only
            cases Checked.minus t.fiber.stack.size argc with
            | error e => exact .refl
            | ok rest =>
              simp only [except_apply]
              cases Checked.minus rest 1 with
              | error e => exact .refl
              | ok base => exact .single (modest_pushFrame hfn base constructs)

/-! ## Safe points -/

instance (rs : List Handle) : Makes Modest (startFirst rs) := by
  induction rs with
  | nil => exact .pure false
  | cons r rest ih =>
    unfold startFirst
    exact .parts

instance : Makes Modest startReady := by
  unfold startReady
  exact .parts

instance : Makes Modest collectIfDue := by
  unfold collectIfDue
  exact .parts

instance (event : Event) : Makes Modest (handle event) := by
  unfold handle
  exact .parts

instance (events : List Event) : Makes Modest (handleAll events) := by
  induction events with
  | nil => exact .pure ()
  | cons event rest ih =>
    unfold handleAll
    exact .parts

instance (again : Nat) : Makes Modest (findFiber again) := by
  induction again with
  | zero => exact .throw _
  | succ again ih =>
    unfold findFiber
    exact .parts

instance : Makes Modest safePoint := by
  unfold safePoint
  exact .parts

/-! ## Instructions -/

instance (op : Opcode) : Makes Modest (arithmetic op) := by
  unfold arithmetic unary strange
  exact .parts

instance (op : Opcode) : Makes Modest (comparison op) := by
  unfold comparison unary strange
  exact .parts

instance (op : Opcode) : Makes Modest (collections op) := by
  unfold collections createList writeItem createSlice strange
  exact .parts

instance (op : Opcode) : Makes Modest (objects op) := by
  unfold objects createClass getProperty assignProperty strange
  exact .parts

instance (op : Opcode) : Makes Modest (iterators op) := by
  unfold iterators iterate strange
  exact .parts

instance (op : Opcode) : Makes Modest (strings op) := by
  unfold strings interpolate strange
  exact .parts

instance (op : Opcode) : Makes Modest (suspensions op) := by
  unfold suspensions await strange
  exact .parts

theorem modest_bindings {op : Opcode} (hop : ¬ op.binds) : Makes Modest (bindings op) := by
  cases op <;> simp [Opcode.binds] at hop <;>
    unfold bindings loadConstant pushGlobal pushLocal setLocal localIndex strange <;> exact .parts

theorem modest_control {op : Opcode} (hop : op ≠ .ret) : Makes Modest (control op) := by
  cases op <;> simp at hop <;> unfold control branchIfFalse strange <;> exact .parts

instance (b : Builtin) (args : List Value) : Makes Modest (b.run args) := by
  unfold Builtin.run NativeCall.clock NativeCall.now NativeCall.print NativeCall.input
    NativeCall.fileExists NativeCall.fileText
  exact .parts

section

variable {host : HostFunctions} [hh : ∀ id args, Makes Modest (host.call id args)]

instance (n : Native) (args : List Value) : Makes Modest (runNative host n args) := by
  unfold runNative
  exact .parts

instance (n : Native) (argc : Nat) (receiver : Option Value) :
    Makes Modest (callNative host n argc receiver) := by
  unfold callNative
  exact .parts

instance (cls : Handle) (argc : Nat) : Makes Modest (callClass host cls argc) := by
  unfold callClass
  exact .parts

instance (r : Handle) (argc : Nat) : Makes Modest (callUnbound host r argc) := by
  unfold callUnbound
  exact .parts

instance (receiver : Value) (r : Handle) (argc : Nat) :
    Makes Modest (callBound host receiver r argc) := by
  unfold callBound
  exact .parts

instance (callee : Value) (argc : Nat) : Makes Modest (callValue host callee argc) := by
  unfold callValue
  exact .parts

instance (receiver method : Value) (argc : Nat) :
    Makes Modest (callMethod host receiver method argc) := by
  unfold callMethod
  exact .parts

instance (name : Handle) (argc : Nat) : Makes Modest (invoke host name argc) := by
  unfold invoke
  exact .parts

instance (op : Opcode) : Makes Modest (functions host op) := by
  unfold functions call callMember strange
  exact .parts

/-- Instructions that neither bind, nor import, nor return. -/
theorem modest_execute {op : Opcode} (hbinds : ¬ op.binds) (hret : op ≠ .ret)
    (himport : op ≠ .importModule ∧ op ≠ .importModuleAs) : Makes Modest (execute host op) := by
  have := modest_bindings hbinds
  have := modest_control hret
  unfold execute
  cases op with
  | ret => exact absurd rfl hret
  | importModule => exact absurd rfl himport.1
  | importModuleAs => exact absurd rfl himport.2
  | _ => infer_instance

end

end Machine

end FiberMachine
