import FiberMachine.Proofs.Ties.Properties
import FiberMachine.Proofs.Ties.SafePoints

/-!
# Instructions side by side

Every instruction agrees on tied machines: the machines read the same opcode, do the same with
tied operands, and end with the same fault if they fail.
-/

namespace FiberMachine

variable {ι : Type} {T : Ties ι} {m : ι → Machine} {v : ι → Value}

open Ties

namespace Machine

/-! ## Operators -/

theorem agree_unary (hm : T.Machines m) {f : Value → Except Fault Value}
    (hf : ∀ v, T.Values v → Settled T.Values fun i => f (v i)) :
    Agree m (fun _ => unary f) (Stays T fun _ => True) := by
  refine (agree_peek hm 0).next fun v m₁ hm₁ hv => ?_
  exact (agree_settled hm₁ (hf v hv)).next fun _ _ hm₂ hw => agree_poke hm₂ 0 hw

theorem agree_binary (hm : T.Machines m) {f : Value → Value → Act Value}
    (hf : ∀ m a b, T.Machines m → T.Values a → T.Values b →
      Agree m (fun i => f (a i) (b i)) T.Yields) [hg : ∀ a b, Grows (f a b)] :
    Agree m (fun _ => binary f) (Grown T fun _ _ => True) := by
  refine (agree_pop hm).next fun right m₁ hm₁ hright => ?_
  refine (agree_pop hm₁).next fun left m₂ hm₂ hleft => ?_
  refine (hf m₂ left right hm₂ hleft hright).grow fun T₁ v m₃ _ hm₃ hv => ?_
  exact (agree_push hm₃ hv).grown fun _ => id

theorem agree_binary_settled (hm : T.Machines m) {f : Value → Value → Except Fault Value}
    (hf : ∀ a b, T.Values a → T.Values b → Settled T.Values fun i => f (a i) (b i)) :
    Agree m (fun _ => binary fun a b => liftM (f a b)) (Grown T fun _ _ => True) :=
  agree_binary hm fun _ a b hm ha hb => (agree_settled hm (hf a b ha hb)).grown fun _ => id

theorem agree_binary_lift (hm : T.Machines m) {f : Value → Value → Heap.Act Value}
    (hf : ∀ (h : ι → Heap) a b, T.Heaps h → T.Values a → T.Values b →
      Agree h (fun i => f (a i) (b i)) T.Yields) [hg : ∀ a b, Grows (f a b)] :
    Agree m (fun _ => binary fun a b => liftM (f a b)) (Grown T fun _ _ => True) :=
  agree_binary hm fun _ a b hm ha hb => agree_lift hm (hf _ a b hm.heap ha hb)

theorem agree_equal [Inhabited ι] {a b : ι → Value} (hm : T.Machines m) (ha : T.Values a)
    (hb : T.Values b) : Agree m (fun i => equal (a i) (b i)) T.Yields := by
  obtain ⟨same, hsame⟩ := hm.heap.equal ha hb
  refine agree_get ?_
  simp only [hsame]
  exact agree_yield hm (values_ofBool same)

theorem agree_createSpan {a b : ι → Value} (hm : T.Machines m) (ha : T.Values a)
    (hb : T.Values b) : Agree m (fun i => createSpan (a i) (b i)) T.Yields := by
  refine (agree_settled hm (settled_bothNumbers ha hb "range")).next fun p m₁ hm₁ hp => ?_
  obtain ⟨p, hp⟩ := hp
  simp only [hp]
  exact (agree_alloc hm₁ (.span _) nofun).grow fun _ _ _ _ hm₂ hr => agree_yield hm₂ (.object hr)

/-! ## Constants, globals and locals -/

theorem agree_loadConstant (hm : T.Machines m) (index : Nat) :
    Agree m (fun _ => loadConstant index) (Stays T fun _ => True) :=
  (agree_constant hm index).next fun _ _ hm₁ hv => agree_push hm₁ hv

theorem agree_pushGlobal (hm : T.Machines m) :
    Agree m (fun _ => pushGlobal) (Stays T fun _ => True) := by
  refine (agree_readName hm).next fun name m₁ hm₁ hn => ?_
  exact (agree_global hm₁ hn).next fun _ _ hm₂ hv => agree_push hm₂ hv

theorem agree_popGlobal (hm : T.Machines m) (exports : Bool) :
    Agree m (fun _ => popGlobal exports) (Stays T fun _ => True) := by
  refine (agree_readName hm).next fun name m₁ hm₁ hn => ?_
  refine (agree_pop hm₁).next fun v m₂ hm₂ hv => ?_
  refine (agree_scope hm₂).next fun scope m₃ hm₃ hs => ?_
  refine (agree_define hm₃ hs hn hv nofun nofun).next fun _ m₄ hm₄ _ => ?_
  cases exports with
  | true => exact agree_recordExport hm₄ hn
  | false => exact agree_pure hm₄ ⟨rfl, trivial⟩

theorem agree_setGlobal (hm : T.Machines m) :
    Agree m (fun _ => setGlobal) (Stays T fun _ => True) := by
  refine (agree_readName hm).next fun name m₁ hm₁ hn => ?_
  exact (agree_peek hm₁ 0).next fun v m₂ hm₂ hv => agree_assignGlobal hm₂ hn hv

theorem agree_localIndex (hm : T.Machines m) :
    Agree m (fun _ => localIndex) (Stays T Same) := by
  refine (agree_readIndex hm).next fun slot m₁ hm₁ hslot => ?_
  refine (agree_frame hm₁).next fun f m₂ hm₂ hf => ?_
  obtain ⟨slot, hslot⟩ := hslot
  obtain ⟨ip, base, constructs, hnumbers⟩ := hf.numbers
  simp only [hslot, hnumbers]
  exact agree_pure hm₂ ⟨rfl, .const _⟩

theorem agree_pushLocal (hm : T.Machines m) :
    Agree m (fun _ => pushLocal) (Stays T fun _ => True) := by
  refine (agree_localIndex hm).nextBy (fun _ _ => .andThen fun _ => by split <;> infer_instance)
    fun index m₁ hm₁ hindex => ?_
  obtain ⟨index, hindex⟩ := hindex
  simp only [hindex]
  refine (agree_fiber hm₁).nextBy (fun _ _ => by split <;> infer_instance)
    fun f m₂ hm₂ hf => ?_
  rcases (hf.stack.get? index).cases with hnone | ⟨v, hv, hsome⟩
  · simp only [hnone]
    exact agree_throw hm₂ (by simp)
  · simp only [hsome]
    exact agree_push hm₂ hv

theorem agree_setLocal (hm : T.Machines m) :
    Agree m (fun _ => setLocal) (Stays T fun _ => True) := by
  refine (agree_localIndex hm).next fun index m₁ hm₁ hindex => ?_
  obtain ⟨index, hindex⟩ := hindex
  simp only [hindex]
  refine (agree_peek hm₁ 0).next fun v m₂ hm₂ hv => agree_changeStack hm₂ fun s hs => ?_
  rcases (hs.set? index hv).cases with hnone | ⟨s', hs', hsome⟩
  · simp only [hnone]
    exact .error nofun
  · simp only [hsome]
    exact .ok hs'

theorem agree_branchIfFalse (hm : T.Machines m) :
    Agree m (fun _ => branchIfFalse) (Stays T fun _ => True) := by
  refine (agree_readIndex hm).next fun distance m₁ hm₁ hdistance => ?_
  obtain ⟨distance, hdistance⟩ := hdistance
  refine (agree_peek hm₁ 0).next fun v m₂ hm₂ hv => ?_
  obtain ⟨falsey, hfalsey⟩ := hv.isFalsey
  simp only [hdistance, hfalsey]
  split
  · exact agree_jumpForward hm₂ distance
  · exact agree_pure hm₂ ⟨rfl, trivial⟩

/-! ## Objects -/

theorem agree_createList (hm : T.Machines m) (count : Nat) :
    Agree m (fun _ => createList count) (Grown T fun _ _ => True) := by
  refine (agree_top hm count).next fun items m₁ hm₁ hi => ?_
  refine (agree_alloc hm₁ hi.body (by simp)).grow fun T₂ r m₂ _ hm₂ hr => ?_
  exact (agree_replaceTop hm₂ count (.object hr)).grown fun _ => id

theorem agree_interpolate [Inhabited ι] (hm : T.Machines m) (count : Nat) :
    Agree m (fun _ => interpolate count) (Grown T fun _ _ => True) := by
  refine (agree_top hm count).next fun fragments m₁ (hm₁ : T.Machines m₁) hf => agree_get ?_
  have hwords : Each Same fun i => (fragments i).toList.map (m₁ i).heap.display :=
    Each.map hf (fun i => (m₁ i).heap.display) fun v hv => hm₁.heap.display hv
  obtain ⟨text, htext⟩ := hwords.same.map String.join
  simp only [htext]
  refine (agree_intern hm₁ text).grow fun T₂ r m₂ _ hm₂ hr => ?_
  exact (agree_replaceTop hm₂ count (.object hr)).grown fun _ => id

theorem agree_writeItem (hm : T.Machines m) :
    Agree m (fun _ => writeItem) (Stays T fun _ => True) := by
  refine (agree_pop hm).next fun v m₁ hm₁ hv => ?_
  refine (agree_pop hm₁).next fun index m₂ hm₂ hindex => ?_
  refine (agree_pop hm₂).next fun target m₃ hm₃ htarget => ?_
  refine (agree_lift_stays hm₃ (agree_setItem (Machines.heap hm₃) htarget hindex hv)).next
    fun _ m₄ hm₄ _ => ?_
  exact agree_push hm₄ hv

theorem agree_createSlice (hm : T.Machines m) :
    Agree m (fun _ => createSlice) (Grown T fun _ _ => True) := by
  refine (agree_pop hm).next fun stop m₁ hm₁ hstop => ?_
  refine (agree_pop hm₁).next fun start m₂ hm₂ hstart => ?_
  refine (agree_pop hm₂).next fun target m₃ hm₃ htarget => ?_
  refine (agree_lift hm₃ (agree_slice (Machines.heap hm₃) htarget hstart hstop)).grow
    fun T₄ v m₄ _ hm₄ hv => ?_
  exact (agree_push hm₄ hv).grown fun _ => id

theorem agree_createClass (hm : T.Machines m) :
    Agree m (fun _ => createClass) (Grown T fun _ _ => True) := by
  refine (agree_readName hm).next fun name m₁ hm₁ hn => ?_
  refine (agree_alloc hm₁ (.classObject hn) nofun).grow fun T₂ r m₂ _ hm₂ hr => ?_
  exact (agree_push hm₂ (.object hr)).grown fun _ => id

theorem agree_getProperty (hm : T.Machines m) :
    Agree m (fun _ => getProperty) (Grown T fun _ _ => True) := by
  refine (agree_readName hm).next fun name m₁ hm₁ hn => ?_
  refine (agree_peek hm₁ 0).next fun v m₂ hm₂ hv => ?_
  refine (agree_property hm₂ hv hn).grow fun T₃ w m₃ _ hm₃ hw => ?_
  exact (agree_poke hm₃ 0 hw).grown fun _ => id

theorem agree_assignProperty (hm : T.Machines m) :
    Agree m (fun _ => assignProperty) (Stays T fun _ => True) := by
  refine (agree_readName hm).next fun name m₁ hm₁ hn => ?_
  refine (agree_pop hm₁).next fun v m₂ hm₂ hv => ?_
  refine (agree_pop hm₂).next fun target m₃ hm₃ htarget => ?_
  refine (agree_setField hm₃ "property assignment" htarget hn hv).next fun _ m₄ hm₄ _ => ?_
  exact agree_push hm₄ hv

theorem agree_iterate (hm : T.Machines m) :
    Agree m (fun _ => iterate) (Stays T fun _ => True) := by
  refine (agree_readIndex hm).nextBy
    (fun _ _ => .andThen fun _ => .andThen fun _ => .andThen fun _ => .andThen fun _ => by
      split <;> infer_instance)
    fun exit m₁ hm₁ hexit => ?_
  obtain ⟨exit, hexit⟩ := hexit
  refine (agree_peek hm₁ 1).nextBy
    (fun _ _ => .andThen fun _ => .andThen fun _ => .andThen fun _ => by
      split <;> infer_instance)
    fun sequence m₂ hm₂ hsequence => ?_
  refine (agree_peek hm₂ 0).nextBy
    (fun _ _ => .andThen fun _ => .andThen fun _ => by split <;> infer_instance)
    fun cursor m₃ hm₃ hcursor => agree_get ?_
  refine (agree_settled hm₃ (settled_nextItem (Machines.heap hm₃) hsequence hcursor)).nextBy
    (fun _ _ => by split <;> infer_instance)
    fun next m₄ hm₄ hnext => ?_
  rcases hnext.cases with hnone | ⟨p, ⟨hitem, hplace⟩, hsome⟩
  · simp only [hnone, hexit]
    exact agree_jumpForward hm₄ exit
  · simp only [hsome]
    exact (agree_poke hm₄ 2 hitem).next fun _ _ hm₅ _ => agree_poke hm₅ 0 hplace

theorem agree_await [Inhabited ι] (hm : T.Machines m) :
    Agree m (fun _ => await) (Stays T fun _ => True) := by
  refine (agree_pop hm).nextBy (fun _ _ => by dsimp only; split <;> infer_instance)
    fun v m₁ (hm₁ : T.Machines m₁) hv => ?_
  obtain ⟨x, hx⟩ := hv.toFloat?
  simp only [hx]
  split
  · exact agree_sleep hm₁ _
  · exact agree_get (agree_mismatch hm₁ (hm₁.heap.display hv))

/-! ## Instructions -/

theorem agree_operand {read : Act Nat} {f : Nat → Act Unit}
    (hread : Agree m (fun _ => read) (Stays T Same))
    (hf : ∀ n m, T.Machines m → Agree m (fun _ => f n) (Anyhow fun _ _ => True))
    [hg : ∀ n, Grows (f n)] : Agree m (fun _ => read >>= f) (Anyhow fun _ _ => True) := by
  refine hread.next fun n m₁ hm₁ hn => ?_
  obtain ⟨n, hn⟩ := hn
  simp only [hn]
  exact hf n m₁ hm₁

variable [Inhabited ι] {host : HostFunctions}

theorem agree_call (hh : host.Agrees ι) (hm : T.Machines m) :
    Agree m (fun _ => call host) (Anyhow fun _ _ => True) := by
  have := hh.tends
  refine (agree_readCount hm).next fun argc m₁ hm₁ hargc => ?_
  obtain ⟨argc, hargc⟩ := hargc
  simp only [hargc]
  exact (agree_peek hm₁ argc).next fun _ _ hm₂ hv => agree_callValue hh hm₂ hv argc

theorem agree_callMember (hh : host.Agrees ι) (hm : T.Machines m) :
    Agree m (fun _ => callMember host) (Anyhow fun _ _ => True) := by
  have := hh.tends
  refine (agree_readName hm).next fun name m₁ hm₁ hn => ?_
  refine (agree_readCount hm₁).next fun argc m₂ hm₂ hargc => ?_
  obtain ⟨argc, hargc⟩ := hargc
  simp only [hargc]
  exact agree_invoke hh hm₂ hn argc

theorem agree_execute (hh : host.Agrees ι) (hm : T.Machines m) (op : Opcode) :
    Agree m (fun _ => execute host op) (Anyhow fun _ _ => True) := by
  cases op with
  | ret => exact (agree_returnFromCall hm).loose
  | constant => exact agree_operand (agree_readCount hm) fun n _ hm => (agree_loadConstant hm n).loose
  | constantLong => exact agree_operand (agree_readIndex hm) fun n _ hm => (agree_loadConstant hm n).loose
  | negate => exact (agree_unary hm fun v hv => settled_change hv _ _).loose
  | increment => exact (agree_unary hm fun v hv => settled_change hv _ _).loose
  | decrement => exact (agree_unary hm fun v hv => settled_change hv _ _).loose
  | not =>
    refine (agree_unary hm fun v hv => ?_).loose
    obtain ⟨falsey, hfalsey⟩ := hv.isFalsey
    simp only [Value.not, hfalsey]
    exact .ok (values_ofBool falsey)
  | add => exact (agree_binary_lift hm fun _ _ _ hT ha hb => agree_sum hT ha hb).anyhow
  | subtract => exact (agree_binary_settled hm fun _ _ ha hb => settled_combine ha hb _ _).anyhow
  | multiply => exact (agree_binary_settled hm fun _ _ ha hb => settled_combine ha hb _ _).anyhow
  | divide => exact (agree_binary_settled hm fun _ _ ha hb => settled_combine ha hb _ _).anyhow
  | power => exact (agree_binary_settled hm fun _ _ ha hb => settled_combine ha hb _ _).anyhow
  | modulo => exact (agree_binary_settled hm fun _ _ ha hb => settled_combine ha hb _ _).anyhow
  | greater => exact (agree_binary_settled hm fun _ _ ha hb => settled_compare ha hb _).anyhow
  | less => exact (agree_binary_settled hm fun _ _ ha hb => settled_compare ha hb _).anyhow
  | equal => exact (agree_binary hm fun _ _ _ hm ha hb => agree_equal hm ha hb).anyhow
  | pushFalse => exact (agree_push hm (values_ofBool false)).loose
  | pushTrue => exact (agree_push hm (values_ofBool true)).loose
  | pushNil => exact (agree_push hm values_nil).loose
  | pop => exact (agree_discard_pop hm).loose
  | defineGlobal => exact (agree_popGlobal hm false).loose
  | exportGlobal => exact (agree_popGlobal hm true).loose
  | getGlobal => exact (agree_pushGlobal hm).loose
  | setGlobal => exact (agree_setGlobal hm).loose
  | getLocal => exact (agree_pushLocal hm).loose
  | setLocal => exact (agree_setLocal hm).loose
  | jumpIfFalse => exact (agree_branchIfFalse hm).loose
  | jump => exact agree_operand (agree_readIndex hm) fun n _ hm => (agree_jumpForward hm n).loose
  | loop => exact agree_operand (agree_readIndex hm) fun n _ hm => (agree_jumpBack hm n).loose
  | call => exact agree_call hh hm
  | invoke => exact agree_callMember hh hm
  | createList => exact agree_operand (agree_readIndex hm) fun n _ hm => (agree_createList hm n).anyhow
  | subscriptRead => exact (agree_binary_lift hm fun _ _ _ hT ha hb => agree_item hT ha hb).anyhow
  | subscriptWrite => exact (agree_writeItem hm).loose
  | sliceArray => exact (agree_createSlice hm).anyhow
  | createRange => exact (agree_binary hm fun _ _ _ hm ha hb => agree_createSpan hm ha hb).anyhow
  | newClass => exact (agree_createClass hm).anyhow
  | getProperty => exact (agree_getProperty hm).anyhow
  | setProperty => exact (agree_assignProperty hm).loose
  | method => exact ((agree_readName hm).next fun _ _ hm₁ hn => agree_defineMethod hm₁ hn).loose
  | raise => exact agree_pure hm trivial
  | interpolate => exact agree_operand (agree_readCount hm) fun n _ hm => (agree_interpolate hm n).anyhow
  | importModule =>
    refine (agree_readName hm).next fun name m₁ hm₁ hn => ?_
    exact (agree_importModule hm₁ hn .none).anyhow
  | importModuleAs =>
    refine (agree_readName hm).next fun name m₁ hm₁ hn => ?_
    refine (agree_readName hm₁).next fun as m₂ hm₂ has => ?_
    exact (agree_importModule hm₂ hn (.some has)).anyhow
  | iterate => exact (agree_iterate hm).loose
  | await => exact (agree_await hm).loose

theorem agree_instruction (hh : host.Agrees ι) (hm : T.Machines m) :
    Agree m (fun _ => instruction host) (Anyhow fun _ _ => True) := by
  have := hh.tends
  refine (agree_readByte hm).nextBy (fun _ _ => by split <;> infer_instance)
    fun byte m₁ hm₁ hbyte => ?_
  obtain ⟨byte, hbyte⟩ := hbyte
  simp only [hbyte]
  cases Opcode.ofByte? byte with
  | some op => exact agree_execute hh hm₁ op
  | none => exact agree_throw hm₁ (by simp)

end Machine
end FiberMachine
