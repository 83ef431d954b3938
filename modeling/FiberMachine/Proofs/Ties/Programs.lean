import FiberMachine.Machine.Interpret
import FiberMachine.Proofs.Ties.Instructions

/-!
# Programs side by side

New machines are tied as far as their libraries go, and so are machines that start a program.
Runs that agree end with one and the same outcome, backtrace included, and leave tied machines
behind.
-/

namespace FiberMachine

variable {ι : Type} {T : Ties ι} {m : ι → Machine} {h : ι → Heap}

open Ties

namespace Machine

/-! ## New machines -/

theorem size_le_withNatives (h : Heap) (members : Members) (ns : List Native) :
    h.slots.size ≤ (withNatives h members ns).1.slots.size := by
  induction ns generalizing h members with
  | nil => exact Nat.le_refl _
  | cons n rest ih =>
    refine Nat.le_trans ?_ (ih _ _)
    exact Nat.le_trans (Heap.size_le_intern h n.name) (Heap.size_le_alloc _ _)

theorem size_le_withMethods (h : Heap) (methods : Table Kind Members)
    (all : List (Kind × NativeModule)) :
    h.slots.size ≤ (withMethods h methods all).1.slots.size := by
  induction all generalizing h methods with
  | nil => exact Nat.le_refl _
  | cons e rest ih => exact Nat.le_trans (size_le_withNatives h .empty e.2.functions) (ih _ _)

theorem tied_withNatives (hT : T.Heaps h) {members : ι → Members} (hm : T.Fields members)
    (ns : List Native)
    (hfit : ∀ i, (withNatives (h i) (members i) ns).1.slots.size ≤ Heap.slotLimit) :
    ∃ T', T.Within T' ∧ T'.Heaps (fun i => (withNatives (h i) (members i) ns).1) ∧
      T'.Fields fun i => (withNatives (h i) (members i) ns).2 := by
  induction ns generalizing T h members with
  | nil => exact ⟨T, .refl T, hT, hm⟩
  | cons n rest ih =>
    have hfit₂ := fun i => Nat.le_trans (size_le_withNatives _ _ rest) (hfit i)
    have hfit₁ := fun i => Nat.le_trans (Heap.size_le_alloc _ (.native n)) (hfit₂ i)
    obtain ⟨T₁, hle₁, hT₁, hname⟩ := hT.intern n.name hfit₁
    obtain ⟨T₂, hle₂, hT₂, hr⟩ := hT₁.alloc (.native n) nofun hfit₂
    have hfields := Rows.insert ((hm.mono hle₁).mono hle₂) (hT₂.apart_handles .text)
      (hle₂.handles hname) (.object hr)
    obtain ⟨T₃, hle₃, hT₃, hm₃⟩ := ih hT₂ hfields hfit
    exact ⟨T₃, (hle₁.trans hle₂).trans hle₃, hT₃, hm₃⟩

theorem tied_withMethods (hT : T.Heaps h) {methods : ι → Table Kind Members}
    (hm : Rows Same T.Fields methods) (all : List (Kind × NativeModule))
    (hfit : ∀ i, (withMethods (h i) (methods i) all).1.slots.size ≤ Heap.slotLimit) :
    ∃ T', T.Within T' ∧ T'.Heaps (fun i => (withMethods (h i) (methods i) all).1) ∧
      Rows Same T'.Fields fun i => (withMethods (h i) (methods i) all).2 := by
  induction all generalizing T h methods with
  | nil => exact ⟨T, .refl T, hT, hm⟩
  | cons e rest ih =>
    obtain ⟨T₁, hle₁, hT₁, hmembers⟩ := tied_withNatives hT .empty e.2.functions fun i =>
      Nat.le_trans (size_le_withMethods _ _ rest) (hfit i)
    have hrows : Rows Same T₁.Fields methods :=
      Each.imp hm fun _ _ hrow => ⟨hrow.1, hrow.2.mono hle₁⟩
    obtain ⟨T₂, hle₂, hT₂, hm₂⟩ := ih hT₁
      (hrows.insert apart_same (.const e.1) hmembers) hfit
    exact ⟨T₂, hle₁.trans hle₂, hT₂, hm₂⟩

/-- No ties at all. -/
def noTies (ι : Type) : Ties ι := ⟨fun _ _ => False, fun _ _ => False⟩

theorem get?_withThreshold (threshold growth : UInt64) (r : Handle) :
    (Heap.withThreshold threshold growth).get? r = none := by
  simp [Heap.get?, Heap.slot?, Heap.withThreshold]

theorem noTies_heaps (threshold growth : ι → UInt64) :
    (noTies ι).Heaps fun i => Heap.withThreshold (threshold i) (growth i) where
  wellFormed _ := Heap.withThreshold_wellFormed _ _
  apart := False.elim
  object := False.elim
  chunk _ _ := ⟨False.elim, fun h => h.1⟩
  bare i r o s ho _ := by simp [get?_withThreshold] at ho
  covers _ i r hr := by simp [Heap.isLive, get?_withThreshold] at hr

/-- A machine that starts with certain methods and global functions. -/
def equipped (c : Config) (methods : List (Kind × NativeModule)) (functions : List Native) :
    Machine :=
  let h := Heap.withThreshold (UInt64.ofNat c.collectAt) (UInt64.ofNat c.collectGrowth)
  let kept := withMethods h .empty methods
  let all := withNatives kept.1 .empty functions
  { heap := all.1, config := c, globals := all.2, methods := kept.2, modules := .empty
    loading := [], running := none, root := none, ready := [], events := [], timers := .start
    host := .empty, library := Library.standard, exported := [] }

theorem new_eq (c : Config) :
    new c = equipped c Library.methods Library.globals.functions := by
  unfold new equipped
  dsimp only

theorem tied_equipped {c : ι → Config} (hc : Same fun i => (c i).habits)
    (methods : List (Kind × NativeModule)) (functions : List Native)
    (hfit : ∀ i, (equipped (c i) methods functions).room ≤ Heap.slotLimit) :
    ∃ T : Ties ι, T.Machines fun i => equipped (c i) methods functions := by
  have hnone := noTies_heaps (fun i => UInt64.ofNat (c i).collectAt)
    fun i => UInt64.ofNat (c i).collectGrowth
  have hrows : Rows Same (noTies ι).Fields fun _ => (.empty : Table Kind Members) := .empty
  obtain ⟨T₁, -, hT₁, hmethods⟩ := tied_withMethods hnone hrows methods fun i =>
    Nat.le_trans (size_le_withNatives _ _ functions) (hfit i)
  have hfields : T₁.Fields fun _ => .empty := .empty
  obtain ⟨T₂, hle, hT₂, hglobals⟩ := tied_withNatives hT₁ hfields functions hfit
  refine ⟨T₂, hT₂, hc, hglobals, .empty, ?_, .nil, .none, .none, .nil, .nil, ?_, .const _, .const _,
    .const _⟩
  · exact Each.imp hmethods fun _ _ hrow => ⟨hrow.1, hrow.2.mono hle⟩
  · exact ⟨.const _, .const _, .nil⟩

/-- New machines with the same habits are tied. -/
theorem tied_new {c : ι → Config} (hc : Same fun i => (c i).habits)
    (hfit : ∀ i, (new (c i)).room ≤ Heap.slotLimit) :
    ∃ T : Ties ι, T.Machines fun i => new (c i) := by
  simp only [new_eq] at hfit ⊢
  exact tied_equipped hc _ _ hfit

/-! ## Backtraces -/

theorem same_functionName? (hT : T.Heaps h) {k : Kind} {r : ι → Handle} (hr : T.handles k r) :
    Same fun i => functionName? (h i) (r i) := by
  rcases hT.function hr with ⟨f, ⟨-, hf, -⟩, hok⟩ | ⟨fault, -, herr⟩
  · obtain ⟨name, hname⟩ := hT.nameText hf.name ""
    simp only [functionName?, hok, hname]
    exact .const _
  · simp only [functionName?, herr]
    exact .const none

theorem same_frameLine (hm : T.Machines m) {f : ι → Frame} (hf : T.Frames f) :
    Same fun i => frameLine (m i).heap (f i) := by
  obtain ⟨-, -, lines, hlines⟩ := hf.code hm
  obtain ⟨ip, base, constructs, hnumbers⟩ := hf.numbers
  have hname : Same fun i => functionName? (m i).heap (f i).function := by
    cases hf with
    | mk hr _ _ => exact same_functionName? hm.heap hr
  obtain ⟨name, hname⟩ := hname
  simp only [frameLine, Frame.line, hlines, hnumbers, hname]
  exact .const _

theorem same_backtrace (hm : T.Machines m) : Same fun i => (m i).backtrace := by
  simp only [backtrace]
  rcases hm.outside.running.cases with hnone | ⟨t, ht, hsome⟩
  · simp only [hnone]
    exact .const []
  · cases ht with
    | mk _ hf =>
      simp only [hsome]
      exact (hf.frames.map (T := Same) (fun i => frameLine (m i).heap)
        fun f hf => same_frameLine hm hf).same

/-! ## Programs -/

theorem tied_reset (hm : T.Machines m) : T.Machines fun i => (m i).reset := by
  have ho := hm.outside
  have hloading : Each T.Values fun i => (m i).loading.map Value.ofHandle :=
    ho.loading.map (fun _ => Value.ofHandle) fun r hr => .object hr
  have hmodules : T.Fields fun i => (m i).modules.filter fun _ v =>
      !((m i).loading.map Value.ofHandle).contains v := by
    refine Rows.filter ho.modules (p := fun i _ v => !((m i).loading.map Value.ofHandle).contains v)
      fun _ v _ hv => ?_
    rcases hloading.mem hm.heap.apart_values hv with hin | hout
    · exact ⟨false, fun i => by simpa using hin i⟩
    · exact ⟨true, fun i => by simpa using hout i⟩
  exact ⟨hm.heap, { ho with
    modules := hmodules
    loading := .nil
    running := .none
    root := .none
    ready := .nil
    events := .nil
    timers := ⟨ho.timers.now, ho.timers.sequence, .nil⟩ }⟩

theorem agree_start (hm : T.Machines m) (p : Prototype) :
    Agree m (fun _ => start p) (Grown T fun _ _ => True) := by
  refine (agree_lift hm (agree_load hm.heap .none p)).grow fun T₁ function m₁ _ hm₁ hf => ?_
  refine (agree_newFiber hm₁ .root hf .nil .none .none).grow fun T₂ root m₂ _ hm₂ hroot => ?_
  have hm₃ : T₂.Machines fun i => { m₂ i with root := some (root i) } :=
    ⟨hm₂.heap, { Machines.outside hm₂ with root := .some hroot }⟩
  exact agree_set ((agree_resume hm₃ ⟨_, hroot⟩).grown fun _ => id)

theorem room_settle (x : Act Bool) (m : Machine) : (settle (x m)).2.room = (after x m).room := by
  simp only [after]
  cases x m with
  | ok ended m' => cases ended <;> rfl
  | error e m' => rfl

theorem room_le_interpret {host : HostFunctions} [∀ id args, Makes Tends (host.call id args)]
    (m : Machine) (steps : Nat) (p : Prototype) : m.room ≤ (m.interpret host steps p).2.room := by
  have hall : Makes Tends (start p >>= fun _ => run host steps) :=
    .bind inferInstance fun _ => inferInstance
  exact Nat.le_trans (room_le_after (start p >>= fun _ => run host steps) m)
    (Nat.le_of_eq (room_settle _ m).symm)

/-- Runs that agree end with the same outcome. -/
theorem settle_tied [Inhabited ι] {x : ι → Act Bool} (hx : Agree m x (Anyhow fun _ => Same))
    (hfit : ∀ i, (settle (x i (m i))).2.room ≤ Heap.slotLimit) :
    ∃ (T' : Ties ι) (outcome : Outcome) (m' : ι → Machine), T'.Machines m' ∧
      (∀ trace, outcome ≠ .halted (.faulted .dangling trace)) ∧
      ∀ i, settle (x i (m i)) = (outcome, m' i) := by
  have hroom : ∀ i, Store.room (after (x i) (m i)) ≤ Heap.slotLimit := fun i =>
    Nat.le_trans (Nat.le_of_eq (room_settle (x i) (m i)).symm) (hfit i)
  rcases hx hroom with ⟨T', ended, m', hm', ⟨ended, hended⟩, hok⟩ | ⟨T', e, m', hm', -, he, herr⟩
  · simp only [hended] at hok
    cases ended with
    | true => exact ⟨T', .finished, m', hm', nofun, fun i => by rw [hok]; rfl⟩
    | false => exact ⟨T', .unfinished, m', hm', nofun, fun i => by rw [hok]; rfl⟩
  · obtain ⟨trace, htrace⟩ := same_backtrace hm'
    refine ⟨T', .halted (.faulted e trace), _, tied_reset hm', fun trace' h => ?_, fun i => ?_⟩
    · cases h
      exact he rfl
    · have hbacktrace : (m' i).backtrace = trace := htrace i
      rw [herr i, settle, hbacktrace]

end Machine
end FiberMachine
