import FiberMachine.Machine.Step
import FiberMachine.Proofs.Machine.Moves

/-!
# Where an action leads

What is said of an action that succeeds can often leave out the quiet moves before and
behind. An instruction is quiet but for at most one thing: a fiber that it spawns or hands
over to, the end or the sleep of the running fiber, or a native function of the host. What
is known of these is known of every instruction.
-/

namespace FiberMachine

open Relation (ReflTransGen)

namespace Machine

def runningId? (m : Machine) : Option Handle := m.running.map Running.id

theorem Move.runningId?_eq {m m' : Machine} (hm : Move m m') : m'.runningId? = m.runningId? := by
  cases hm with
  | heap _ => rfl
  | work _ ho =>
    have hid := congrArg (Option.map Prod.fst) ho.running
    simp only [Option.map_map] at hid
    exact hid

theorem runningId?_of_row {m m' : Machine} (hr : ReflTransGen Move m m') :
    m'.runningId? = m.runningId? := by
  induction hr with
  | refl => rfl
  | tail _ hm ih => exact hm.runningId?_eq.trans ih

/-- When an action succeeds, the machines before and after it are related. -/
class Leads (T : Machine → Machine → Prop) {α : Type} (x : Act α) : Prop where
  leads : ∀ m a m', x m = .ok a m' → T m m'

/-- Machines that are related and run the same fiber. -/
structure Staying (T : Machine → Machine → Prop) (m m' : Machine) : Prop where
  related : T m m'
  running : m'.runningId? = m.runningId?

/-- Quiet moves before make no difference, nor do those behind unless another fiber runs. -/
class Absorbs (T : Machine → Machine → Prop) : Prop where
  of_row : ∀ {m m'}, ReflTransGen Move m m' → T m m'
  row_left : ∀ {m m₁ m'}, ReflTransGen Move m m₁ → T m₁ m' → T m m'
  row_right : ∀ {m m₁ m'}, Staying T m m₁ → ReflTransGen Move m₁ m' → T m m'

variable {T : Machine → Machine → Prop}

instance [Absorbs T] : Absorbs (Staying T) where
  of_row hr := ⟨Absorbs.of_row hr, runningId?_of_row hr⟩
  row_left hr ht := ⟨Absorbs.row_left hr ht.related, ht.running.trans (runningId?_of_row hr)⟩
  row_right ht hr :=
    ⟨Absorbs.row_right ht.related hr, (runningId?_of_row hr).trans ht.running⟩

namespace Leads

variable {α β : Type} {x : Act α} {f : α → Act β}

instance quiet [Absorbs T] [hx : Makes Move x] : Leads T x where
  leads m _ _ h := Absorbs.of_row (after_ok h ▸ hx.row m)

theorem of_staying (hx : Leads (Staying T) x) : Leads T x where
  leads m _ _ h := (hx.leads m _ _ h).related

theorem behind [Absorbs T] (hx : Makes Move x) (hf : ∀ a, Leads T (f a)) : Leads T (x >>= f) where
  leads m _ _ h := by
    obtain ⟨a, m₁, hxm, hfm⟩ := bind_eq_ok h
    exact Absorbs.row_left (after_ok hxm ▸ hx.row m) ((hf a).leads _ _ _ hfm)

theorem ahead [Absorbs T] (hx : Leads (Staying T) x) (hf : ∀ a, Makes Move (f a)) :
    Leads (Staying T) (x >>= f) where
  leads m _ m' h := by
    obtain ⟨a, m₁, hxm, hfm⟩ := bind_eq_ok h
    have hr : ReflTransGen Move m₁ m' := after_ok hfm ▸ (hf a).row m₁
    have hs := hx.leads _ _ _ hxm
    exact ⟨Absorbs.row_right hs hr, (runningId?_of_row hr).trans hs.running⟩

/-- Goes through an action part by part. -/
theorem parts (hx : Leads T x := by
    repeat' first
      | infer_instance
      | with_reducible refine Leads.behind inferInstance fun _ => ?_
      | with_reducible refine Leads.ahead ?_ fun _ => inferInstance
      | with_reducible refine Leads.of_staying (Leads.ahead ?_ fun _ => inferInstance)
      | split
      | dsimp only) : Leads T x := hx

end Leads

/-! ## Instructions -/

section Instructions

variable {host : HostFunctions} [Absorbs T]

section Calls

variable [∀ function argc, Leads T (spawn function argc)]
  [∀ n args, Leads (Staying T) (runNative host n args)]

instance (r : Handle) (argc : Nat) (constructs : Bool) :
    Leads T (callFunction r argc constructs) := by
  unfold callFunction
  exact .parts

instance (n : Native) (argc : Nat) (receiver : Option Value) :
    Leads (Staying T) (callNative host n argc receiver) := by
  unfold callNative
  exact .parts

instance (n : Native) (argc : Nat) (receiver : Option Value) :
    Leads T (callNative host n argc receiver) := .of_staying inferInstance

instance (cls : Handle) (argc : Nat) : Leads T (callClass host cls argc) := by
  unfold callClass
  exact .parts

instance (r : Handle) (argc : Nat) : Leads T (callUnbound host r argc) := by
  unfold callUnbound
  exact .parts

instance (receiver : Value) (r : Handle) (argc : Nat) :
    Leads T (callBound host receiver r argc) := by
  unfold callBound
  exact .parts

instance (callee : Value) (argc : Nat) : Leads T (callValue host callee argc) := by
  unfold callValue
  exact .parts

instance (receiver method : Value) (argc : Nat) :
    Leads T (callMethod host receiver method argc) := by
  unfold callMethod
  exact .parts

instance (name : Handle) (argc : Nat) : Leads T (invoke host name argc) := by
  unfold invoke
  exact .parts

instance (op : Opcode) : Leads T (functions host op) := by
  unfold functions call callMember strange
  exact .parts

end Calls

section Returns

variable [Leads T finish]

instance : Leads T returnFromCall := by
  unfold returnFromCall
  exact .parts

instance (op : Opcode) : Leads T (control op) := by
  unfold control strange
  exact .parts

end Returns

section Suspensions

variable [∀ delay, Leads T (sleep delay)]

instance : Leads T await := by
  unfold await
  exact .parts

instance (op : Opcode) : Leads T (suspensions op) := by
  unfold suspensions strange
  exact .parts

end Suspensions

section Imports

variable [∀ key code, Leads T (startModule key code)]

instance (name : String) (key : Handle) : Leads T (importFile name key) := by
  unfold importFile
  exact .parts

instance (name : Handle) (as : Option Handle) : Leads T (importModule name as) := by
  unfold importModule
  exact .parts

instance (op : Opcode) : Leads T (imports op) := by
  unfold imports strange
  exact .parts

end Imports

variable [∀ function argc, Leads T (spawn function argc)] [Leads T finish]
  [∀ delay, Leads T (sleep delay)] [∀ key code, Leads T (startModule key code)]
  [∀ n args, Leads (Staying T) (runNative host n args)]

instance (op : Opcode) : Leads T (execute host op) := by
  unfold execute
  exact .parts

instance : Leads T (instruction host) := by
  unfold instruction
  exact .parts

end Instructions

end Machine

end FiberMachine
