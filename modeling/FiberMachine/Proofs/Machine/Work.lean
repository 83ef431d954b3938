import FiberMachine.Proofs.Machine.Turns

/-!
# The work of fibers

What a fiber goes on with when it runs again are its operands, its frames and the module
that it loads. Safe points change them for no fiber, and an instruction changes them for no
fiber but its own.
-/

namespace FiberMachine

open Relation (ReflTransGen)

/-- What a fiber goes on with. -/
structure Work where
  stack : OperandStack
  frames : List Frame
  module : Option Handle

def Fiber.work (f : Fiber) : Work := ⟨f.stack, f.frames, f.module⟩

namespace Machine

variable {m m' : Machine}

def parkedWork? (h : Heap) (r : Handle) : Option Work :=
  (h.fiberAt? r).bind fun body => body.map Fiber.work

/-- The work of a fiber, whether it runs or is parked. -/
def work? (m : Machine) (r : Handle) : Option Work :=
  match m.running with
  | some t => if t.id = r then some t.fiber.work else parkedWork? m.heap r
  | none => parkedWork? m.heap r

theorem work?_running {t : Running} (ht : m.running = some t) :
    m.work? t.id = some t.fiber.work := by
  simp [work?, ht]

theorem work?_parked {r : Handle} (hr : m.runningId? ≠ some r) :
    m.work? r = parkedWork? m.heap r := by
  simp only [work?]
  cases ht : m.running with
  | none => rfl
  | some t =>
    refine if_neg fun he => hr ?_
    rw [runningId?, ht, Option.map_some, he]

theorem parkedWork?_of_fiberAt? {h : Heap} {r : Handle} {f : Fiber}
    (hf : h.fiberAt? r = some (some f)) : parkedWork? h r = some f.work := by
  simp [parkedWork?, hf]

theorem parkedWork?_eq_none {h : Heap} {r : Handle} (hf : ∀ f, h.fiberAt? r ≠ some (some f)) :
    parkedWork? h r = none := by
  simp only [parkedWork?]
  cases hb : h.fiberAt? r with
  | none => rfl
  | some body =>
    cases body with
    | none => rfl
    | some f => exact absurd hb (hf f)

/-! ## Fibers at home -/

/-- The heap is well-formed, and the body of the running fiber is out of it. -/
structure Housed (m : Machine) : Prop where
  wellFormed : m.heap.WellFormed
  out : ∀ t, m.running = some t → m.heap.fiberAt? t.id = some none

/-- The heap grows, and a machine whose fibers are at home remains one. -/
structure Houses (m m' : Machine) : Prop extends Tends m m' where
  housed : m.Housed → m'.room ≤ Heap.slotLimit → m'.Housed

namespace Houses

theorem refl (m : Machine) : Houses m m := ⟨.refl m, fun hm _ => hm⟩

theorem trans {m'' : Machine} (h : Houses m m') (h' : Houses m' m'') : Houses m m'' where
  toTends := h.toTends.trans h'.toTends
  housed hm hfit := h'.housed (h.housed hm (Nat.le_trans h'.room_le hfit)) hfit

theorem of_out (ht : Tends m m') (hout : m.Housed → m'.room ≤ Heap.slotLimit →
    ∀ t, m'.running = some t → m'.heap.fiberAt? t.id = some none) : Houses m m' where
  toTends := ht
  housed hm hfit := ⟨ht.wellFormed hm.wellFormed hfit, hout hm hfit⟩

theorem of_row (hr : ReflTransGen Houses m m') : Houses m m' := by
  induction hr with
  | refl => exact refl _
  | tail _ h ih => exact ih.trans h

/-- Neither the heap nor the identity of the running fiber changes. -/
theorem of_eq (hh : m'.heap = m.heap) (hr : m'.runningId? = m.runningId?) : Houses m m' := by
  refine of_out (.of_heap_eq hh) fun hm _ t ht => ?_
  have hid : m.runningId? = some t.id := by rw [← hr, runningId?, ht, Option.map_some]
  obtain ⟨t', ht', he⟩ := Option.map_eq_some_iff.mp hid
  rw [hh, ← he, hm.out t' ht']

end Houses

theorem houses_after {α : Type} (x : Act α) [hx : Makes Houses x] (m : Machine) :
    Houses m (after x m) := .of_row (hx.row m)

theorem Move.houses (hm : Move m m') : Houses m m' := by
  refine .of_out hm.tends fun hh hfit t ht => ?_
  obtain ⟨-, ha⟩ := hm.alike hh.wellFormed hfit
  have hid : m.runningId? = some t.id := by
    rw [← hm.runningId?_eq, runningId?, ht, Option.map_some]
  obtain ⟨t', ht', he⟩ := Option.map_eq_some_iff.mp hid
  rw [ha.fibers.fiberAt, ← he, hh.out t' ht']

theorem runningId?_changeFiber (f : Fiber → Fiber) (m : Machine) :
    (after (changeFiber f) m).heap = m.heap ∧
      (after (changeFiber f) m).runningId? = m.runningId? := by
  simp only [after, changeFiber]
  cases ht : m.running with
  | none => exact ⟨rfl, rfl⟩
  | some t => exact ⟨rfl, by simp [runningId?, ht]⟩

theorem after_leave {t : Running} (ht : m.running = some t) (state : FiberState) :
    after (leave state) m =
      if m.heap.isLive t.id then m.left state t else { m with running := none } := by
  simp only [after, leave, bind_apply, get_apply, ht, modify_apply, change_apply, left]
  cases m.heap.isLive t.id <;> rfl

theorem after_enter (id : Handle) (m : Machine) : after (enter id) m =
    match m.heap.fiberAt? id with
    | some (some f) => m.entered id f f.caller
    | _ => m := by
  split
  · rename_i f hf
    exact after_ok (enter_eq hf)
  · rename_i hf
    simp only [after, enter, bind_apply, get_apply, except_apply, Heap.get]
    cases ho : m.heap.get? id with
    | none => rfl
    | some o =>
      dsimp only
      cases hbody : o.body with
      | fiber body =>
        cases body with
        | none => rfl
        | some f =>
          refine absurd ?_ (hf f)
          simp [Heap.fiberAt?, ho, hbody, Body.fiber?]
      | _ => rfl

theorem houses_leave (state : FiberState) (m : Machine) : Houses m (after (leave state) m) := by
  refine .of_out (tends_after _ m) fun hm hfit t' ht' => ?_
  cases ht : m.running with
  | none =>
    rw [after_ok (leave_nobody ht state)] at ht'
    rw [ht] at ht'
    cases ht'
  | some t =>
    rw [after_leave ht] at ht'
    split at ht' <;> cases ht'

theorem houses_enter (id : Handle) (m : Machine) : Houses m (after (enter id) m) := by
  refine .of_out (tends_after _ m) fun hm hfit t ht => ?_
  rw [after_enter] at ht ⊢
  split at ht
  · rename_i f hf
    cases ht
    simp only [entered, fiberAt?_withFiber, ↓reduceIte, hf, Option.map_some]
  · exact hm.out t ht

theorem after_newFiber (kind : FiberKind) (function : Handle) (args : List Value)
    (caller module : Option Handle) (m : Machine) :
    after (newFiber kind function args caller module) m = m ∨
      ∃ f, after (newFiber kind function args caller module) m = m.withNewFiber f := by
  cases h : newFiber kind function args caller module m with
  | ok r m' =>
    obtain ⟨f, -, rfl, -⟩ := newFiber_eq_ok h
    exact Or.inr ⟨f, after_ok h⟩
  | error e m' =>
    refine Or.inl ((after_error h).trans ?_)
    simp only [newFiber, bind_apply, get_apply, except_apply] at h
    split at h
    · rename_i hf
      split at hf <;> cases hf
      split at h
      · rename_i hs
        split at hs <;> cases hs
        cases h
      · rename_i hs
        split at hs <;> cases hs
        cases h
        rfl
    · rename_i hf
      split at hf <;> cases hf
      cases h
      rfl

theorem houses_newFiber (kind : FiberKind) (function : Handle) (args : List Value)
    (caller module : Option Handle) (m : Machine) :
    Houses m (after (newFiber kind function args caller module) m) := by
  have ht := tends_after (newFiber kind function args caller module) m
  rcases after_newFiber kind function args caller module m with h | ⟨f, h⟩
  · rw [h]
    exact .refl m
  · rw [h] at ht ⊢
    refine .of_out ht fun hm hfit t hrun => ?_
    have hout := hm.out t hrun
    exact (live_newFiber hm.wellFormed hfit (Heap.isLive_of_fiberAt? hout)).2.trans hout

theorem Housed.collected (hm : m.Housed) : m.collected.Housed := by
  refine ⟨hm.wellFormed.collect _, fun t ht => ?_⟩
  have hout := hm.out t ht
  refine (fiberAt?_collected hm.wellFormed ?_).trans hout
  exact .root (roots_running ht _ (List.mem_cons_self ..)) (Heap.isLive_of_fiberAt? hout)

theorem houses_collected (m : Machine) : Houses m m.collected :=
  ⟨tends_collected m, fun hm _ => hm.collected⟩

theorem Effect.houses (he : Effect Houses m m') : Houses m m' := by
  cases he with
  | steady hs => exact hs.move.houses
  | queues hh _ hr => exact .of_eq hh (by rw [runningId?, hr, runningId?])
  | link caller => exact .of_eq (runningId?_changeFiber ..).1 (runningId?_changeFiber ..).2
  | leave state => exact houses_leave state m
  | enter id => exact houses_enter id m
  | newFiber kind function args caller module =>
    exact houses_newFiber kind function args caller module m
  | pushFrame _ _ => exact .of_eq (runningId?_changeFiber ..).1 (runningId?_changeFiber ..).2
  | collect => exact houses_collected m
  | host h => exact h

instance (priority := low) {α : Type} (x : Act α) [hx : Makes (Effect Houses) x] :
    Makes Houses x := hx.mono fun _ _ => Effect.houses

/-! ## Fibers at rest -/

/-- The work of no fiber changes: every fiber that is left had its work before. -/
structure Rests (m m' : Machine) : Prop extends Houses m m' where
  work : m.Housed → m'.room ≤ Heap.slotLimit → ∀ r w, m'.work? r = some w → m.work? r = some w

namespace Rests

theorem refl (m : Machine) : Rests m m := ⟨.refl m, fun _ _ _ _ h => h⟩

theorem trans {m'' : Machine} (h : Rests m m') (h' : Rests m' m'') : Rests m m'' where
  toHouses := h.toHouses.trans h'.toHouses
  work hm hfit r w hw := by
    have hfit' := Nat.le_trans h'.room_le hfit
    exact h.work hm hfit' r w (h'.work (h.housed hm hfit') hfit r w hw)

theorem of_row (hr : ReflTransGen Rests m m') : Rests m m' := by
  induction hr with
  | refl => exact refl _
  | tail _ h ih => exact ih.trans h

/-- The heap and the work of the running fiber are as they were. -/
theorem of_eq (hh : m'.heap = m.heap)
    (hr : (m'.running.map fun t => (t.id, t.fiber.work)) =
      m.running.map fun t => (t.id, t.fiber.work)) : Rests m m' := by
  have hid : m'.runningId? = m.runningId? := by
    have hid := congrArg (Option.map Prod.fst) hr
    simp only [Option.map_map] at hid
    exact hid
  refine ⟨.of_eq hh hid, fun _ _ r w hw => ?_⟩
  simp only [work?, hh] at hw ⊢
  cases ht : m.running <;> cases ht' : m'.running <;> simp [ht, ht'] at hr hw ⊢
  · exact hw
  · obtain ⟨he, hwork⟩ := hr
    rw [he, hwork] at hw
    exact hw

end Rests

theorem rests_after {α : Type} (x : Act α) [hx : Makes Rests x] (m : Machine) :
    Rests m (after x m) := .of_row (hx.row m)

theorem Still.rests (hs : Still m m') : Rests m m' := by
  refine ⟨hs.steady.move.houses, fun hm hfit r w hw => ?_⟩
  obtain ⟨-, ha⟩ := hs.steady.move.alike hm.wellFormed hfit
  have hr : m'.running = m.running := hs.sameRunning
  simpa only [work?, hr, parkedWork?, ha.fibers.fiberAt] using hw

instance (priority := low) {α : Type} (x : Act α) [hx : Makes Still x] : Makes Rests x :=
  hx.mono fun _ _ => Still.rests

instance (root : Machine → Option Handle) (modules : Machine → Members)
    (loading ready : Machine → List Handle) (events : Machine → List Event)
    (timers : Machine → Timers) :
    Makes Rests (modify fun m : Machine => { m with
      root := root m, modules := modules m, loading := loading m, ready := ready m
      events := events m, timers := timers m }) :=
  .single fun _ => .of_eq rfl rfl

instance (f : Timers → Timers × List Event) : Makes Rests (fire f) :=
  .single fun _ => .of_eq rfl rfl

instance (caller : Option Handle) :
    Makes Rests (changeFiber fun fiber => { fiber with caller }) := by
  refine .single fun m => ?_
  simp only [after, changeFiber]
  cases ht : m.running with
  | none => exact .refl m
  | some t => exact .of_eq rfl (by simp [ht, Fiber.work])

theorem work_park {state : FiberState} (hs : state ≠ .done) (f : Fiber) :
    (park state f).work = f.work := by
  cases state with
  | done => exact absurd rfl hs
  | _ => rfl

/-- A fiber that has left, or failed to, has taken no work with it but its own. -/
theorem work?_leave (hm : m.Housed) {state : FiberState} {r : Handle} {w : Work}
    (hr : state = .done → m.runningId? ≠ some r)
    (hw : (after (leave state) m).work? r = some w) : m.work? r = some w := by
  cases ht : m.running with
  | none => rwa [after_ok (leave_nobody ht state)] at hw
  | some t =>
    have hout := hm.out t ht
    have hid : m.runningId? = some t.id := by rw [runningId?, ht, Option.map_some]
    rw [after_leave ht, if_pos (Heap.isLive_of_fiberAt? hout)] at hw
    rw [work?_parked (by simp [runningId?, left])] at hw
    by_cases hrt : r = t.id
    · subst hrt
      have hne : state ≠ .done := fun hd => hr hd hid
      have hf : (m.left state t).heap.fiberAt? t.id = some (some (park state t.fiber)) := by
        simp [left, fiberAt?_withFiber, hout]
      rwa [parkedWork?_of_fiberAt? hf, work_park hne, ← work?_running ht] at hw
    · have hf : (m.left state t).heap.fiberAt? r = m.heap.fiberAt? r := by
        simp [left, fiberAt?_withFiber, hrt]
      rw [work?_parked (by rw [hid]; simpa using Ne.symm hrt)]
      simpa only [parkedWork?, hf] using hw

theorem rests_leave {state : FiberState} (hs : state ≠ .done) : Makes Rests (leave state) :=
  .single fun m => ⟨houses_leave state m, fun hm _ _ _ hw =>
    work?_leave hm (fun hd => absurd hd hs) hw⟩

instance : Makes Rests (leave .waiting) := rests_leave (by decide)

instance : Makes Rests (leave .suspended) := rests_leave (by decide)

instance (id : Handle) : Makes Rests (enter id) := by
  refine .single fun m => ⟨houses_enter id m, fun hm _ r w hw => ?_⟩
  rw [after_enter] at hw
  split at hw
  · rename_i f hf
    -- the running fiber, if there is one, is not in the heap
    have hrun : ∀ q, (∃ g, m.heap.fiberAt? q = some (some g)) → m.runningId? ≠ some q := by
      rintro q ⟨g, hg⟩ hq
      obtain ⟨t, ht, rfl⟩ := Option.map_eq_some_iff.mp hq
      rw [hm.out t ht] at hg
      cases hg
    by_cases hr : r = id
    · subst hr
      rw [work?_running (m := m.entered r f f.caller) rfl] at hw
      rw [work?_parked (hrun r ⟨f, hf⟩), parkedWork?_of_fiberAt? hf]
      exact hw
    · have hat : (m.entered id f f.caller).heap.fiberAt? r = m.heap.fiberAt? r := by
        simp [entered, fiberAt?_withFiber, hr]
      rw [work?_parked (by simpa [runningId?, entered] using Ne.symm hr)] at hw
      simp only [parkedWork?, hat] at hw
      obtain ⟨body, hbody, hmap⟩ := Option.bind_eq_some_iff.mp hw
      obtain ⟨g, rfl, -⟩ := Option.map_eq_some_iff.mp hmap
      rwa [work?_parked (hrun r ⟨g, hbody⟩)]
  · exact hw

instance (target : Handle) : Makes Rests (resume target) := by
  unfold resume
  exact .parts

instance : Makes Rests (returnToCaller .suspended) := by
  unfold returnToCaller
  exact .parts

instance (delay : Duration) : Makes Rests (sleep delay) := by
  unfold sleep
  exact .parts

instance (rs : List Handle) : Makes Rests (startFirst rs) := by
  induction rs with
  | nil => exact .pure false
  | cons r rest ih =>
    unfold startFirst
    exact .parts

instance : Makes Rests startReady := by
  unfold startReady
  exact .parts

/-- A collection changes no body that it leaves. -/
theorem rests_collected (m : Machine) : Rests m m.collected := by
  refine ⟨houses_collected m, fun hm _ r w hw => ?_⟩
  by_cases hid : m.runningId? = some r
  · obtain ⟨t, ht, rfl⟩ := Option.map_eq_some_iff.mp hid
    rw [work?_running ht]
    rwa [← work?_running (m := m.collected) ht]
  · rw [work?_parked hid]
    rw [work?_parked (m := m.collected) hid] at hw
    obtain ⟨body, hbody, hmap⟩ := Option.bind_eq_some_iff.mp hw
    have hlive := Heap.isLive_of_fiberAt? hbody
    have hreached := (Heap.isLive_collect hm.wellFormed _ r).mp hlive
    rwa [parkedWork?, ← fiberAt?_collected hm.wellFormed hreached]

instance : Makes Rests collect := .single rests_collected

instance : Makes Rests collectIfDue := by
  unfold collectIfDue
  exact .parts

instance (event : Event) : Makes Rests (handle event) := by
  unfold handle
  exact .parts

instance (events : List Event) : Makes Rests (handleAll events) := by
  induction events with
  | nil => exact .pure ()
  | cons event rest ih =>
    unfold handleAll
    exact .parts

instance (again : Nat) : Makes Rests (findFiber again) := by
  induction again with
  | zero => exact .throw _
  | succ again ih =>
    unfold findFiber
    exact .parts

instance : Makes Rests safePoint := by
  unfold safePoint
  exact .parts

/-! ## New fibers -/

/-- The work of no fiber changes that was there before. -/
structure Adds (m m' : Machine) : Prop extends Houses m m' where
  work : m.Housed → m'.room ≤ Heap.slotLimit → ∀ r w, m'.work? r = some w →
    m.work? r = some w ∨ m.work? r = none

theorem Rests.adds (hr : Rests m m') : Adds m m' :=
  ⟨hr.toHouses, fun hm hfit r w hw => Or.inl (hr.work hm hfit r w hw)⟩

theorem Adds.rests {m₁ : Machine} (ha : Adds m m₁) (hr : Rests m₁ m') : Adds m m' where
  toHouses := ha.toHouses.trans hr.toHouses
  work hm hfit r w hw := by
    have hfit' := Nat.le_trans hr.room_le hfit
    exact ha.work hm hfit' r w (hr.work (ha.housed hm hfit') hfit r w hw)

/-- The running fiber takes its work along wherever it goes. -/
theorem Adds.work_running (ha : Adds m m') (hm : m.Housed) (hfit : m'.room ≤ Heap.slotLimit)
    {t : Running} (ht : m.running = some t) {w : Work} (hw : m'.work? t.id = some w) :
    w = t.fiber.work := by
  have hold := work?_running ht
  rcases ha.work hm hfit _ w hw with h | h
  · rw [hold, Option.some.injEq] at h
    exact h.symm
  · rw [hold] at h
    cases h

theorem adds_newFiber (f : Fiber) (m : Machine) : Adds m (m.withNewFiber f) := by
  have hroom : m.room ≤ (m.withNewFiber f).room := Heap.size_le_alloc ..
  refine ⟨.of_out ⟨hroom, fun hw hfit => hw.alloc (by simp) hfit⟩ fun hm hfit t ht => ?_,
    fun hm hfit r w hw => ?_⟩
  · have hout := hm.out t ht
    exact (live_newFiber hm.wellFormed hfit (Heap.isLive_of_fiberAt? hout)).2.trans hout
  · by_cases hid : m.runningId? = some r
    · obtain ⟨t, ht, rfl⟩ := Option.map_eq_some_iff.mp hid
      rw [work?_running (m := m.withNewFiber f) ht] at hw
      exact Or.inl ((work?_running ht).trans hw)
    · rw [work?_parked (m := m.withNewFiber f) hid] at hw
      simp only [parkedWork?, fiberAt?_newFiber hm.wellFormed hfit] at hw
      split at hw
      · rename_i hr
        refine Or.inr ?_
        rw [work?_parked hid, hr]
        refine parkedWork?_eq_none fun g hg => ?_
        exact not_isLive_newFiber hm.wellFormed hfit (Heap.isLive_of_fiberAt? hg)
      · exact Or.inl ((work?_parked hid).trans hw)

/-- A new fiber whose body nobody changes any more. -/
theorem leads_newFiber {g : Handle → Act Unit} [hg : ∀ r, Makes Rests (g r)] (kind : FiberKind)
    (function : Handle) (args : List Value) (caller module : Option Handle) :
    Leads Adds (newFiber kind function args caller module >>= g) where
  leads m _ m' h := by
    obtain ⟨r, _, hnew, h⟩ := bind_eq_ok h
    obtain ⟨f, -, rfl, -⟩ := newFiber_eq_ok hnew
    exact (adds_newFiber f m).rests (after_ok h ▸ rests_after (g r) _)

instance (rs : Machine → List Handle) :
    Makes Rests (modify fun m : Machine => { m with ready := rs m }) :=
  .single fun _ => .of_eq rfl rfl

/-! ## Other fibers -/

/-- The work of no fiber changes that was there before and does not run. -/
structure Idle (m m' : Machine) : Prop extends Houses m m' where
  work : m.Housed → m'.room ≤ Heap.slotLimit → ∀ r w, m.runningId? ≠ some r →
    m'.work? r = some w → m.work? r = some w ∨ m.work? r = none

theorem Adds.idle (ha : Adds m m') : Idle m m' :=
  ⟨ha.toHouses, fun hm hfit r w _ => ha.work hm hfit r w⟩

theorem Idle.rests {m₁ : Machine} (hi : Idle m m₁) (hr : Rests m₁ m') : Idle m m' where
  toHouses := hi.toHouses.trans hr.toHouses
  work hm hfit r w hid hw := by
    have hfit' := Nat.le_trans hr.room_le hfit
    exact hi.work hm hfit' r w hid (hr.work (hi.housed hm hfit') hfit r w hw)

theorem houses_of_moves (hr : ReflTransGen Move m m') : Houses m m' :=
  .of_row (ReflTransGen.mono (fun _ _ => Move.houses) _ _ hr)

/-- Quiet moves change the work of no fiber but the one that runs. -/
theorem work?_of_moves (hr : ReflTransGen Move m m') (hm : m.Housed)
    (hfit : m'.room ≤ Heap.slotLimit) :
    m'.runningId? = m.runningId? ∧ ∀ r, m.runningId? ≠ some r → m'.work? r = m.work? r := by
  obtain ⟨-, ha⟩ := row_alike hr hm.wellFormed hfit
  have hrun := runningId?_of_row hr
  refine ⟨hrun, fun r hid => ?_⟩
  rw [work?_parked hid, work?_parked (hrun ▸ hid)]
  simp only [parkedWork?, ha.fibers.fiberAt]

instance : Absorbs Idle where
  of_row hr := by
    refine ⟨houses_of_moves hr, fun hm hfit r w hid hw => Or.inl ?_⟩
    rwa [← (work?_of_moves hr hm hfit).2 r hid]
  row_left hr hi := by
    refine ⟨(houses_of_moves hr).trans hi.toHouses, fun hm hfit r w hid hw => ?_⟩
    have hfit' := Nat.le_trans hi.room_le hfit
    obtain ⟨hrun, hwork⟩ := work?_of_moves hr hm hfit'
    rw [← hwork r hid]
    exact hi.work ((houses_of_moves hr).housed hm hfit') hfit r w (hrun ▸ hid) hw
  row_right hi hr := by
    refine ⟨hi.related.toHouses.trans (houses_of_moves hr), fun hm hfit r w hid hw => ?_⟩
    have hfit' := Nat.le_trans (houses_of_moves hr).room_le hfit
    have hwork := (work?_of_moves hr (hi.related.housed hm hfit') hfit).2 r (hi.running ▸ hid)
    exact hi.related.work hm hfit' r w hid (hwork ▸ hw)
theorem Leads.idle {α : Type} {x : Act α} (hx : Leads Adds x) : Leads Idle x where
  leads m a m' h := (hx.leads m a m' h).idle

instance (function : Handle) (argc : Nat) : Leads Idle (spawn function argc) := by
  unfold spawn
  refine .behind inferInstance fun _ => .behind inferInstance fun _ =>
    .behind inferInstance fun _ => (leads_newFiber ..).idle

instance (key : Handle) (code : Prototype) : Leads Idle (startModule key code) := by
  unfold startModule
  refine .behind inferInstance fun _ => .behind inferInstance fun _ =>
    .behind inferInstance fun _ => .behind inferInstance fun _ => (leads_newFiber ..).idle

theorem Leads.of_rests {α : Type} {x : Act α} (hx : Makes Rests x) : Leads Adds x where
  leads m _ _ h := (after_ok h ▸ rests_after x m).adds

instance (delay : Duration) : Leads Idle (sleep delay) := (Leads.of_rests inferInstance).idle

/-! ## The end of a fiber -/

/-- The running fiber has nothing to go on with afterwards. -/
structure Ends (m m' : Machine) : Prop extends Idle m m' where
  ended : m.Housed → m'.room ≤ Heap.slotLimit → ∀ t, m.running = some t →
    ∀ w, m'.work? t.id = some w → w.frames = []

theorem ends_leave (m : Machine) : Ends m (after (leave .done) m) := by
  refine ⟨⟨houses_leave .done m, fun hm _ r w hid hw => ?_⟩, fun hm _ t ht w hw => ?_⟩
  · exact Or.inl (work?_leave hm (fun _ => hid) hw)
  · have hout := hm.out t ht
    rw [after_leave ht, if_pos (Heap.isLive_of_fiberAt? hout),
      work?_parked (by simp [runningId?, left])] at hw
    have hf : (m.left .done t).heap.fiberAt? t.id = some (some (park .done t.fiber)) := by
      simp [left, fiberAt?_withFiber, hout]
    rw [parkedWork?_of_fiberAt? hf] at hw
    cases hw
    rfl

theorem Ends.rests {m₁ : Machine} (he : Ends m m₁) (hr : Rests m₁ m') : Ends m m' where
  toIdle := he.toIdle.rests hr
  ended hm hfit t ht w hw := by
    have hfit' := Nat.le_trans hr.room_le hfit
    exact he.ended hm hfit' t ht w (hr.work (he.housed hm hfit') hfit _ w hw)

theorem Ends.of_eq {m₁ : Machine} (hh : m₁.heap = m.heap) (hr : m₁.running = m.running)
    (he : Ends m₁ m') : Ends m m' := by
  have hhoused : m.Housed → m₁.Housed := fun hm => ⟨hh ▸ hm.wellFormed, hh ▸ hr ▸ hm.out⟩
  have hwork : ∀ r, m₁.work? r = m.work? r := fun r => by simp only [work?, hh, hr]
  have hid : m₁.runningId? = m.runningId? := by simp only [runningId?, hr]
  refine ⟨⟨.of_out ?_ fun hm hfit => (he.housed (hhoused hm) hfit).out, fun hm hfit r w hne hw => ?_⟩,
    fun hm hfit t ht => he.ended (hhoused hm) hfit t (hr.trans ht)⟩
  · exact (Tends.of_heap_eq hh).trans he.toTends
  · rw [← hwork]
    exact he.work (hhoused hm) hfit r w (hid ▸ hne) hw

instance : Leads Ends (returnToCaller .done) where
  leads m _ m' h := by
    obtain ⟨_, _, hget, h⟩ := bind_eq_ok h
    cases hget
    obtain ⟨_, m₁, hleave, h⟩ := bind_eq_ok h
    have hrest : Makes Rests (match m.running.bind fun running => running.fiber.caller with
        | none => pure ()
        | some caller => do if (← get).stateOf? caller = some .waiting then enter caller) := .parts
    have hends : Ends m m₁ := after_ok hleave ▸ ends_leave m
    exact hends.rests (after_ok h ▸ @rests_after _ _ hrest m₁)

instance (id : Handle) : Leads Ends (depart id) where
  leads m _ m' h := by
    obtain ⟨_, m₁, hroot, h⟩ := bind_eq_ok h
    cases hroot
    refine .of_eq ?_ ?_ (Leads.leads (x := returnToCaller .done) _ _ _ h) <;> rfl

instance : Leads Ends finish where
  leads m _ m' h := by
    obtain ⟨t, m₁, ht, hrow, hd⟩ := finish_eq_ok h
    have he : Ends m₁ m' := Leads.leads (x := depart t.id) _ _ _ hd
    refine ⟨Absorbs.row_left hrow he.toIdle, fun hm hfit t' ht' => ?_⟩
    have hhouses := houses_of_moves hrow
    have hid : m₁.runningId? = some t'.id := by
      rw [runningId?_of_row hrow, runningId?, ht', Option.map_some]
    obtain ⟨t₁, ht₁, hid⟩ := Option.map_eq_some_iff.mp hid
    have hended := he.ended (hhouses.housed hm (he.room_le.trans hfit)) hfit t₁ ht₁
    rwa [hid] at hended

instance : Leads Idle finish where
  leads m a m' h := (Leads.leads (T := Ends) m a m' h).toIdle

end Machine

open Machine

/-- The native functions of a host leave the operands and the frames of all fibers alone. -/
structure HostFunctions.LeavesWork (host : HostFunctions) : Prop where
  rests : ∀ id args, Makes Rests (host.call id args)
  running : ∀ id args, Makes SameRunning (host.call id args)

theorem HostFunctions.LeavesWork.ofNative {host : HostFunctions} (hh : host.LeavesWork)
    (n : Native) (args : List Value) :
    Makes Rests (runNative host n args) ∧ Makes SameRunning (runNative host n args) := by
  unfold runNative
  split
  · exact ⟨inferInstance, inferInstance⟩
  · exact ⟨hh.rests _ args, hh.running _ args⟩

namespace Machine

variable {host : HostFunctions}

theorem idle_runNative (hh : host.LeavesWork) (n : Native) (args : List Value) :
    Leads (Staying Idle) (runNative host n args) where
  leads m _ _ h := by
    obtain ⟨hrests, hrunning⟩ := hh.ofNative n args
    refine ⟨(after_ok h ▸ rests_after (runNative host n args) m).adds.idle, ?_⟩
    simp only [runningId?, sameRunning_of_row (after_ok h ▸ hrunning.row m)]

theorem idle_instruction (hh : host.LeavesWork) : Leads Idle (instruction host) :=
  have := idle_runNative hh
  inferInstance

end Machine

end FiberMachine
