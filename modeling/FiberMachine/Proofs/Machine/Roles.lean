import FiberMachine.Proofs.Machine.Loading
import FiberMachine.Proofs.Machine.Preemption

/-!
# What fibers are for

A fiber runs a program, an async call or the code of a module, and that never changes. When
fibers take turns nothing changes but who runs: no module comes or goes and no global is
defined.
-/

namespace FiberMachine

open Relation (ReflTransGen)

/-- What a fiber runs, with the module that it loads. -/
def Fiber.role (f : Fiber) : FiberKind × Option Handle := (f.kind, f.module)

namespace Machine

variable {α : Type} {m m' : Machine} {r : Handle} {ρ : FiberKind × Option Handle}

def parkedRole? (h : Heap) (r : Handle) : Option (FiberKind × Option Handle) :=
  (h.fiberAt? r).bind fun body => body.map Fiber.role

/-- The role of a fiber, whether it runs or is parked. -/
def role? (m : Machine) (r : Handle) : Option (FiberKind × Option Handle) :=
  match m.running with
  | some t => if t.id = r then some t.fiber.role else parkedRole? m.heap r
  | none => parkedRole? m.heap r

theorem role?_running {t : Running} (ht : m.running = some t) :
    m.role? t.id = some t.fiber.role := by
  simp [role?, ht]

theorem role?_parked (hr : m.runningId? ≠ some r) : m.role? r = parkedRole? m.heap r := by
  simp only [role?]
  cases ht : m.running with
  | none => rfl
  | some t =>
    refine if_neg fun he => hr ?_
    rw [runningId?, ht, Option.map_some, he]

theorem parkedRole?_of_fiberAt? {h : Heap} {f : Fiber} (hf : h.fiberAt? r = some (some f)) :
    parkedRole? h r = some f.role := by
  simp [parkedRole?, hf]

theorem exists_of_parkedRole? {h : Heap} (hr : parkedRole? h r = some ρ) :
    ∃ f, h.fiberAt? r = some (some f) ∧ f.role = ρ := by
  obtain ⟨body, hbody, hmap⟩ := Option.bind_eq_some_iff.mp hr
  obtain ⟨f, rfl, hf⟩ := Option.map_eq_some_iff.mp hmap
  exact ⟨f, hbody, hf⟩

/-- What has a role is a fiber. -/
theorem isFiber_of_role? (hm : m.Housed) (hr : m.role? r = some ρ) : m.IsFiber r := by
  by_cases hid : m.runningId? = some r
  · obtain ⟨t, ht, rfl⟩ := Option.map_eq_some_iff.mp hid
    simp [IsFiber, hm.out t ht]
  · rw [role?_parked hid] at hr
    obtain ⟨f, hf, -⟩ := exists_of_parkedRole? hr
    simp [IsFiber, hf]

/-- What has something to go on with has a role. -/
theorem exists_role {w : Work} (hw : m.work? r = some w) : ∃ ρ, m.role? r = some ρ := by
  by_cases hid : m.runningId? = some r
  · obtain ⟨t, ht, rfl⟩ := Option.map_eq_some_iff.mp hid
    exact ⟨_, role?_running ht⟩
  · rw [work?_parked hid] at hw
    obtain ⟨body, hbody, hmap⟩ := Option.bind_eq_some_iff.mp hw
    obtain ⟨f, rfl, rfl⟩ := Option.map_eq_some_iff.mp hmap
    exact ⟨f.role, (role?_parked hid).trans (parkedRole?_of_fiberAt? hbody)⟩

theorem role?_eq_of_outline
    (hrun : m'.running.map Running.outline = m.running.map Running.outline)
    (hf : ∀ r, m'.heap.fiberAt? r = m.heap.fiberAt? r) (r : Handle) : m'.role? r = m.role? r := by
  simp only [role?, parkedRole?, hf]
  cases ht : m.running <;> cases ht' : m'.running <;> simp [ht, ht', Running.outline] at hrun ⊢
  obtain ⟨hid, -, hkind, -, hmodule⟩ := hrun
  simp [hid, hkind, hmodule, Fiber.role]

theorem Alike.role?_eq (ha : Alike m m') (r : Handle) : m'.role? r = m.role? r :=
  role?_eq_of_outline ha.outline.running ha.fibers.fiberAt r

/-! ## Handing over -/

/-- No fiber has another role than before. -/
structure Casts (m m' : Machine) : Prop extends Houses m m' where
  roles : m.Housed → m'.room ≤ Heap.slotLimit → ∀ r ρ, m'.role? r = some ρ → m.role? r = some ρ

namespace Casts

theorem refl (m : Machine) : Casts m m := ⟨.refl m, fun _ _ _ _ h => h⟩

theorem trans {m₁ : Machine} (h : Casts m m₁) (h' : Casts m₁ m') : Casts m m' where
  toHouses := h.toHouses.trans h'.toHouses
  roles hm hfit r ρ hr := by
    have hfit' := Nat.le_trans h'.room_le hfit
    exact h.roles hm hfit' r ρ (h'.roles (h.housed hm hfit') hfit r ρ hr)

theorem of_row (hr : ReflTransGen Casts m m') : Casts m m' := by
  induction hr with
  | refl => exact refl _
  | tail _ h ih => exact ih.trans h

theorem of_eq (hh : m'.heap = m.heap)
    (hr : m'.running.map Running.outline = m.running.map Running.outline) : Casts m m' where
  toHouses := by
    refine .of_eq hh ?_
    have hid := congrArg (Option.map Prod.fst) hr
    simp only [Option.map_map] at hid
    exact hid
  roles _ _ r ρ h := role?_eq_of_outline hr (fun _ => by rw [hh]) r ▸ h

end Casts

/-- Fibers take turns and garbage goes, and nothing else changes. -/
structure Handover (m m' : Machine) : Prop extends Casts m m' where
  keeps : Keeps Eq m m'

namespace Handover

theorem of_row (hr : ReflTransGen Handover m m') : Handover m m' :=
  ⟨.of_row (ReflTransGen.mono (fun _ _ h => h.toCasts) _ _ hr),
    .of_row (ReflTransGen.mono (fun _ _ h => h.keeps) _ _ hr)⟩

/-- Only queues have changed. -/
theorem of_eq (hh : m'.heap = m.heap)
    (hr : m'.running.map Running.outline = m.running.map Running.outline)
    (hm : m'.modules = m.modules) (hl : m'.loading = m.loading) (hg : m'.globals = m.globals) :
    Handover m m' := ⟨.of_eq hh hr, .of_eq hh hm hl hg.symm⟩

end Handover

theorem handover_after (x : Act α) [hx : Makes Handover x] (m : Machine) :
    Handover m (after x m) := .of_row (hx.row m)

instance (priority := low) {G : Members → Members → Prop} [IsPreorder Members G] (x : Act α)
    [hx : Makes Handover x] : Makes (Keeps G) x :=
  hx.mono fun _ _ h => h.keeps.mono fun g _ he => he ▸ refl_of G g

instance (root : Machine → Option Handle) (ready : Machine → List Handle)
    (events : Machine → List Event) (timers : Machine → Timers) :
    Makes Handover (modify fun m : Machine => { m with
      root := root m, ready := ready m, events := events m, timers := timers m }) :=
  .single fun _ => .of_eq rfl rfl rfl rfl rfl

instance (f : Timers → Timers × List Event) : Makes Handover (fire f) :=
  .single fun _ => .of_eq rfl rfl rfl rfl rfl

instance (caller : Option Handle) :
    Makes Handover (changeFiber fun fiber => { fiber with caller }) := by
  refine .single fun m => ⟨⟨houses_after _ m, fun _ _ r ρ hr => ?_⟩, keeps_after Eq _ m⟩
  simp only [after, changeFiber] at hr
  cases ht : m.running with
  | none => simpa only [ht] using hr
  | some t => simpa only [role?, ht, Fiber.role] using hr

theorem role_park (state : FiberState) (f : Fiber) : (park state f).role = f.role := by
  cases state <;> rfl

instance (state : FiberState) : Makes Handover (leave state) := by
  refine .single fun m => ⟨⟨houses_leave state m, fun hm _ r ρ hr => ?_⟩, keeps_after Eq _ m⟩
  cases ht : m.running with
  | none => rwa [after_ok (leave_nobody ht state)] at hr
  | some t =>
    have hout := hm.out t ht
    rw [after_leave ht, if_pos (Heap.isLive_of_fiberAt? hout),
      role?_parked (by simp [runningId?, left])] at hr
    by_cases hrt : r = t.id
    · subst hrt
      have hf : (m.left state t).heap.fiberAt? t.id = some (some (park state t.fiber)) := by
        simp [left, fiberAt?_withFiber, hout]
      rwa [parkedRole?_of_fiberAt? hf, role_park, ← role?_running ht] at hr
    · have hf : (m.left state t).heap.fiberAt? r = m.heap.fiberAt? r := by
        simp [left, fiberAt?_withFiber, hrt]
      rw [role?_parked (by simpa [runningId?, ht] using Ne.symm hrt)]
      simpa only [parkedRole?, hf] using hr

instance (id : Handle) : Makes Handover (enter id) := by
  refine .single fun m => ⟨⟨houses_enter id m, fun hm _ r ρ hr => ?_⟩, keeps_after Eq _ m⟩
  rw [after_enter] at hr
  split at hr
  · rename_i f hf
    -- the running fiber, if there is one, is not in the heap
    have hrun : ∀ q g, m.heap.fiberAt? q = some (some g) → m.runningId? ≠ some q := by
      intro q g hg hq
      obtain ⟨t, ht, rfl⟩ := Option.map_eq_some_iff.mp hq
      rw [hm.out t ht] at hg
      cases hg
    by_cases hrid : r = id
    · subst hrid
      rw [role?_running (m := m.entered r f f.caller) rfl] at hr
      rwa [role?_parked (hrun r f hf), parkedRole?_of_fiberAt? hf]
    · have hat : (m.entered id f f.caller).heap.fiberAt? r = m.heap.fiberAt? r := by
        simp [entered, fiberAt?_withFiber, hrid]
      rw [role?_parked (by simpa [runningId?, entered] using Ne.symm hrid)] at hr
      simp only [parkedRole?, hat] at hr
      obtain ⟨g, hg, rfl⟩ := exists_of_parkedRole? hr
      rw [role?_parked (hrun r g hg)]
      exact hr
  · exact hr

instance (target : Handle) : Makes Handover (resume target) := by
  unfold resume
  exact .parts

instance (state : FiberState) : Makes Handover (returnToCaller state) := by
  unfold returnToCaller
  exact .parts

instance (delay : Duration) : Makes Handover (sleep delay) := by
  unfold sleep
  exact .parts

instance (id : Handle) : Makes Handover (depart id) := by
  unfold depart
  exact .parts

instance (rs : List Handle) : Makes Handover (startFirst rs) := by
  induction rs with
  | nil => exact .pure false
  | cons r rest ih =>
    unfold startFirst
    exact .parts

instance : Makes Handover startReady := by
  unfold startReady
  exact .parts

/-! ## Safe points -/

theorem handover_collected (m : Machine) : Handover m m.collected := by
  refine ⟨⟨houses_collected m, fun hm _ r ρ hr => ?_⟩,
    after_ok (collect_apply m) ▸ keeps_after Eq collect m⟩
  by_cases hid : m.runningId? = some r
  · obtain ⟨t, ht, rfl⟩ := Option.map_eq_some_iff.mp hid
    rw [role?_running ht]
    rwa [← role?_running (m := m.collected) ht]
  · rw [role?_parked hid]
    rw [role?_parked (m := m.collected) hid] at hr
    obtain ⟨f, hf, rfl⟩ := exists_of_parkedRole? hr
    have hreached := (Heap.isLive_collect hm.wellFormed _ r).mp (Heap.isLive_of_fiberAt? hf)
    rwa [parkedRole?, ← fiberAt?_collected hm.wellFormed hreached]

instance : Makes Handover collect := .single handover_collected

instance : Makes Handover collectIfDue := by
  unfold collectIfDue
  exact .parts

instance (event : Event) : Makes Handover (handle event) := by
  unfold handle
  exact .parts

instance (events : List Event) : Makes Handover (handleAll events) := by
  induction events with
  | nil => exact .pure ()
  | cons event rest ih =>
    unfold handleAll
    exact .parts

instance (again : Nat) : Makes Handover (findFiber again) := by
  induction again with
  | zero => exact .throw _
  | succ again ih =>
    unfold findFiber
    exact .parts

instance : Makes Handover safePoint := by
  unfold safePoint
  exact .parts

instance {G : Members → Members → Prop} [IsPreorder Members G] (op : Opcode) :
    Makes (Keeps G) (suspensions op) := by
  unfold suspensions await strange
  exact .parts

/-! ## New fibers -/

theorem role?_newFiber (hm : m.Housed) {f : Fiber}
    (hfit : (m.withNewFiber f).room ≤ Heap.slotLimit) (r : Handle) :
    (m.withNewFiber f).role? r = if r = m.newFiberHandle f then some f.role else m.role? r := by
  by_cases hid : m.runningId? = some r
  · obtain ⟨t, ht, rfl⟩ := Option.map_eq_some_iff.mp hid
    rw [if_neg, role?_running ht, role?_running (m := m.withNewFiber f) ht]
    intro he
    exact not_isLive_newFiber hm.wellFormed hfit (he ▸ Heap.isLive_of_fiberAt? (hm.out t ht))
  · rw [role?_parked (m := m.withNewFiber f) hid, parkedRole?, fiberAt?_newFiber hm.wellFormed hfit]
    split
    · rfl
    · exact (role?_parked hid).symm

theorem not_isFiber_newFiberHandle (hm : m.Housed) {f : Fiber}
    (hfit : (m.withNewFiber f).room ≤ Heap.slotLimit) : ¬ m.IsFiber (m.newFiberHandle f) :=
  fun hf => not_isLive_newFiber hm.wellFormed hfit (isLive_of_isFiber hf)

/-! ## Instructions -/

/-- At most a fiber without a module is new, and the running fiber has not ended. -/
structure Enlists (m m' : Machine) : Prop where
  roles : ∀ r ρ, m'.role? r = some ρ → m.role? r = some ρ ∨ ¬ m.IsFiber r ∧ ρ.2 = none
  active : ∀ t, m.running = some t → m'.stateOf? t.id ≠ some .done

structure Enlisting (m m' : Machine) : Prop extends Tends m m' where
  enlists : ∀ row, Nested row m → m'.room ≤ Heap.slotLimit → Enlists m m'

theorem Nested.stateOf?_running {row : List Handle} (hn : Nested row m) {t : Running}
    (ht : m.running = some t) : m.stateOf? t.id = some .running := by
  simp [stateOf?, ht, hn.running t ht]

instance : Absorbs Enlisting where
  of_row hr := by
    refine ⟨(houses_of_moves hr).toTends, fun row hn hfit => ?_⟩
    obtain ⟨-, ha⟩ := row_alike hr hn.wellFormed hfit
    refine ⟨fun r ρ h => .inl (ha.role?_eq r ▸ h), fun t ht => ?_⟩
    rw [ha.stateOf?_eq, hn.stateOf?_running ht]
    decide
  row_left hr h := by
    refine ⟨(houses_of_moves hr).toTends.trans h.toTends, fun row hn hfit => ?_⟩
    obtain ⟨hw, ha⟩ := row_alike hr hn.wellFormed (h.room_le.trans hfit)
    obtain ⟨hroles, hactive⟩ := h.enlists row (hn.alike hw ha) hfit
    refine ⟨fun r ρ h => by simpa only [ha.role?_eq, ha.isFiber] using hroles r ρ h, fun t ht => ?_⟩
    obtain ⟨t₁, ht₁, hid⟩ := ha.running_id ht
    exact hid ▸ hactive t₁ ht₁
  row_right h hr := by
    refine ⟨h.related.toTends.trans (houses_of_moves hr).toTends, fun row hn hfit => ?_⟩
    have hfit₁ := (room_le_of_row hr).trans hfit
    obtain ⟨-, ha⟩ := row_alike hr (h.related.wellFormed hn.wellFormed hfit₁) hfit
    obtain ⟨hroles, hactive⟩ := h.related.enlists row hn hfit₁
    exact ⟨fun r ρ h => hroles r ρ (ha.role?_eq r ▸ h), fun t ht => ha.stateOf?_eq t.id ▸ hactive t ht⟩

instance (function : Handle) (argc : Nat) : Leads Enlisting (spawn function argc) := by
  unfold spawn
  refine .behind inferInstance fun id => .behind inferInstance fun args =>
    .behind inferInstance fun _ => ⟨fun m _ m' h => ?_⟩
  obtain ⟨r, _, hnew, h⟩ := bind_eq_ok h
  obtain ⟨f, stack, -, -, rfl, rfl⟩ := newFiber_eq_ok_body hnew
  cases h
  refine ⟨(adds_newFiber _ m).toTends.trans (.of_heap_eq rfl),
    fun row hn hfit => ⟨fun r ρ hr => ?_, fun t ht => ?_⟩⟩
  · have hr := (role?_newFiber hn.toHoused hfit r).symm.trans hr
    split at hr
    · rename_i hnew
      cases hr
      exact .inr ⟨hnew ▸ not_isFiber_newFiberHandle hn.toHoused hfit, rfl⟩
    · exact .inl hr
  · rw [show Machine.stateOf? _ t.id = some t.fiber.state by simp [stateOf?, ht, withNewFiber],
      hn.running t ht]
    decide

instance (delay : Duration) : Leads Enlisting (sleep delay) where
  leads m _ m' h := by
    have hh := after_ok h ▸ handover_after (sleep delay) m
    refine ⟨hh.toTends, fun row hn hfit =>
      ⟨fun r ρ hr => .inl (hh.roles hn.toHoused hfit r ρ hr), fun t ht => ?_⟩⟩
    obtain ⟨id, _, hid, h⟩ := bind_eq_ok h
    obtain ⟨rfl, t', ht', rfl⟩ := runningId_eq_ok hid
    cases ht.symm.trans ht'
    have hn' : Nested row { m with timers := m.timers.add delay t.id } := hn.of_eq rfl rfl
    have hreturned := hn'.returned ht h
    rw [hreturned.state]
    decide

/-! ## Functions of the host -/

theorem Intrusion.casts (h : Intrusion m m') : Casts m m' := by
  cases h with
  | still hs =>
    refine ⟨hs.steady.move.houses, fun hm hfit r ρ hr => ?_⟩
    obtain ⟨-, ha⟩ := hs.steady.move.alike hm.wellFormed hfit
    exact ha.role?_eq r ▸ hr
  | collect => exact (handover_collected m).toCasts
  | post | clock => exact .of_eq rfl rfl

theorem enlisting_runNative {host : HostFunctions} (hh : host.Intrudes) (n : Native)
    (args : List Value) : Leads (Staying Enlisting) (runNative host n args) := by
  unfold runNative
  split
  · infer_instance
  · refine ⟨fun m _ m' h => ?_⟩
    have hrow : ReflTransGen Intrusion m m' := after_ok h ▸ (hh _ _).row m
    have hrun := running_of_intrusions hrow
    have hcasts : Casts m m' := .of_row (ReflTransGen.mono (fun _ _ => Intrusion.casts) _ _ hrow)
    refine ⟨⟨hcasts.toTends, fun row hn hfit =>
      ⟨fun r ρ hr => .inl (hcasts.roles hn.toHoused hfit r ρ hr), fun t ht => ?_⟩⟩,
      by rw [runningId?, hrun, runningId?]⟩
    simp [stateOf?, hrun, ht, hn.running t ht]

theorem moves_control {op : Opcode} (hop : op ≠ .ret) : Makes Move (control op) := by
  cases op <;> simp at hop <;> unfold control strange <;> exact .parts

/-- Only a return ends a fiber, and only an import starts one for a module. -/
theorem enlisting_execute {host : HostFunctions} (hh : host.Intrudes) {op : Opcode}
    (hret : op ≠ .ret) (himport : op ≠ .importModule ∧ op ≠ .importModuleAs) :
    Leads Enlisting (execute host op) := by
  have := enlisting_runNative hh
  have := moves_control hret
  unfold execute
  cases op with
  | ret => exact absurd rfl hret
  | importModule => exact absurd rfl himport.1
  | importModuleAs => exact absurd rfl himport.2
  | jumpIfFalse | jump | loop | raise => exact .quiet
  | _ => infer_instance

end Machine

end FiberMachine
