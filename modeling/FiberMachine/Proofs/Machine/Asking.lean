import FiberMachine.Proofs.Machine.NativeCalls

/-!
# What a dictionary is asked

A program asks a dictionary with a subscript or by calling one of its methods, and the host by
running a method itself. Whichever way it is asked, the dictionary replies in the same way, and
only a key that is looked up and not there is a fault.
-/

namespace FiberMachine

namespace Heap

variable {h : Heap} {d : Handle} {t : Table Value Value} {q : Query Value} {k v : Value}

/-- How it ends when a dictionary is asked: with its reply, or because the key that is looked
up is not there. -/
inductive Serves {σ : Type} (heap : σ → Heap) (h : Heap) (d : Handle) (t : Table Value Value)
    (q : Query Value) : EStateM.Result Fault σ Value → Prop
  | replies {r : Value} {s : σ} : Replies h d t q r (heap s) → Serves heap h d t q (.ok r s)
  | misses {k : Value} {s : σ} : q = .get k ∨ q = .read k → t.find? k = none → heap s = h →
      Serves heap h d t q (.error (.unknownKey (h.display k)) s)

/-- Keys that are looked up are missing in the map where they are in the dictionary. -/
theorem misses_iff (hw : h.WellFormed) : (q.map h.key).Misses (h.mapping t) ↔
    ∃ k, (q = .get k ∨ q = .read k) ∧ t.find? k = none := by
  have hkey : ∀ k, h.key k ∉ h.mapping t ↔ t.find? k = none := fun k => by
    rw [mem_mapping_iff hw, Table.contains, Bool.not_eq_true, Option.isSome_eq_false_iff,
      Option.isNone_iff_eq_none]
  cases q <;> simp [Query.map, Query.Misses, hkey]

namespace Serves

variable {σ : Type} {heap : σ → Heap} {result : EStateM.Result Fault σ Value} {r : Value} {s : σ}

/-- What the finite map has an answer to is answered. -/
theorem exists_reply (hs : Serves heap h d t q result) (hw : h.WellFormed)
    (hfound : ¬ (q.map h.key).Misses (h.mapping t)) : ∃ r s, result = .ok r s := by
  cases hs with
  | @replies r s => exact ⟨r, s, rfl⟩
  | misses hq hk => exact absurd ((misses_iff hw).mpr ⟨_, hq, hk⟩) hfound

theorem exists_fault (hs : Serves heap h d t q result) (hw : h.WellFormed)
    (hmiss : (q.map h.key).Misses (h.mapping t)) : ∃ k s, (q = .get k ∨ q = .read k) ∧
      result = .error (.unknownKey (h.display k)) s ∧ heap s = h := by
  obtain ⟨k, hq, hk⟩ := (misses_iff hw).mp hmiss
  cases hs with
  | replies hr =>
    rw [hr.find?_eq hq] at hk
    cases hk
  | @misses k s hq _ hheap => exact ⟨k, s, hq, rfl, hheap⟩

theorem answers (hs : Serves heap h d t q (.ok r s)) (hw : h.WellFormed)
    (hfit : (heap s).slots.size ≤ slotLimit) (ht : h.dictionary d = .ok t)
    (hkeys : ∀ k ∈ t.keys, h.Keeps k) : (q.map h.key).Answers (heap s) (h.mapping t) r ∧
      (heap s).mapping? d = some ((q.map h.key).change (h.mapping t)) ∧
      ∀ r o, r ≠ d → h.get? r = some o → (heap s).get? r = some o := by
  cases hs with
  | replies hr =>
    obtain ⟨hanswers, hmap⟩ := hr.answers hw hfit ht hkeys
    exact ⟨hanswers, hmap, fun _ _ hne => hr.get?_of_ne hw.toArena hfit hne⟩

end Serves

theorem change_apply_of_dictionary (ht : h.dictionary d = .ok t) (f : Object → Object) :
    change d f h = .ok () (h.update d f) := by
  obtain ⟨o, ho, -⟩ := dictionary_eq_ok.mp ht
  exact if_pos (isLive_iff.mpr ⟨o, ho⟩)

/-! ## Subscripts -/

theorem serves_item (hd : v.toHandle? = some d) (ht : h.dictionary d = .ok t) (k : Value) :
    Serves id h d t (.read k) (item v k h) := by
  obtain ⟨o, ho, hb⟩ := dictionary_eq_ok.mp ht
  simp only [item, hd, bind_apply, get_apply, Heap.get, ho, except_apply, hb, itemOf]
  cases hv : t.find? k with
  | none => exact .misses (.inr rfl) hv rfl
  | some v => exact .replies (.read hv)

theorem setItem_apply (hd : v.toHandle? = some d) (ht : h.dictionary d = .ok t) (k w : Value) :
    setItem v k w h = .ok () (h.update d (changeDictionary (·.insert k w))) := by
  obtain ⟨o, ho, hb⟩ := dictionary_eq_ok.mp ht
  simp only [setItem, hd, bind_apply, get_apply, Heap.get, ho, except_apply, hb, itemChange]
  exact change_apply_of_dictionary ht _

/-! ## Methods -/

theorem object_apply_of_dictionary (hd : v.toHandle? = some d) (ht : h.dictionary d = .ok t)
    (name : String) (rest : List Value) :
    NativeCall.object ⟨name, v :: rest⟩ 0 .dictionary h = .ok d h := by
  obtain ⟨o, ho, hb⟩ := dictionary_eq_ok.mp ht
  have hk : o.kind = .dictionary := by rw [Object.kind, hb, Body.kind]
  simp only [NativeCall.object, NativeCall.value, List.getElem?_cons_zero, bind_apply, get_apply,
    except_apply, hd, Heap.get, ho, hk, ↓reduceIte, pure_apply]

/-- The keys are listed in another order. -/
theorem sortEntries_perm (h : Heap) (ks : List Value) :
    ((sortEntries (ks.map fun k => (h.display k, k))).map Prod.snd).Perm ks := by
  have hsorted := (List.mergeSort_perm (ks.map fun k => (h.display k, k))
    fun a b => decide (a.1 ≤ b.1)).map Prod.snd
  rw [List.map_map] at hsorted
  exact hsorted.trans (by simp [Function.comp_def])

theorem serves_dictKeys (hd : v.toHandle? = some d) (ht : h.dictionary d = .ok t) (name : String)
    (rest : List Value) : Serves id h d t .keys (NativeCall.dictKeys ⟨name, v :: rest⟩ h) := by
  simp only [NativeCall.dictKeys, bind_apply, object_apply_of_dictionary hd ht, get_apply, ht,
    except_apply, run, pure_apply]
  exact .replies (.keys (sortEntries_perm h t.keys))

theorem serves_dictGet (hd : v.toHandle? = some d) (ht : h.dictionary d = .ok t) (name : String)
    (rest : List Value) :
    Serves id h d t (.get k) (NativeCall.dictGet ⟨name, v :: k :: rest⟩ h) := by
  simp only [NativeCall.dictGet, bind_apply, object_apply_of_dictionary hd ht, get_apply, ht,
    except_apply, NativeCall.value, List.getElem?_cons_succ, List.getElem?_cons_zero]
  cases hv : t.find? k with
  | none => exact .misses (.inl rfl) hv rfl
  | some v => exact .replies (.get hv)

/-- A dictionary serves a method that is run on it. -/
theorem serves_builtin {b : Builtin} {rest : List Value} (hd : v.toHandle? = some d)
    (ht : h.dictionary d = .ok t) (hq : b.query? rest = some q) : ∃ y : Act Value,
      b.run (v :: rest) = (liftM y : Machine.Act Value) ∧ Serves id h d t q (y h) := by
  unfold Builtin.query? at hq
  split at hq <;> cases hq
  · refine ⟨_, rfl, ?_⟩
    simp only [NativeCall.dictPut, bind_apply, object_apply_of_dictionary hd ht, except_apply,
      NativeCall.value, List.getElem?_cons_succ, List.getElem?_cons_zero,
      change_apply_of_dictionary ht, pure_apply]
    exact .replies (.put _ _)
  · exact ⟨_, rfl, serves_dictGet hd ht _ _⟩
  · refine ⟨_, rfl, ?_⟩
    simp only [NativeCall.dictHas, bind_apply, object_apply_of_dictionary hd ht, get_apply, ht,
      except_apply, NativeCall.value, List.getElem?_cons_succ, List.getElem?_cons_zero, pure_apply]
    exact .replies (.has _)
  · refine ⟨_, rfl, ?_⟩
    simp only [NativeCall.dictRemove, bind_apply, object_apply_of_dictionary hd ht, get_apply, ht,
      except_apply, NativeCall.value, List.getElem?_cons_succ, List.getElem?_cons_zero,
      change_apply_of_dictionary ht, pure_apply]
    exact .replies (.remove _)
  · refine ⟨_, rfl, ?_⟩
    simp only [NativeCall.dictSize, bind_apply, object_apply_of_dictionary hd ht, get_apply, ht,
      except_apply, pure_apply]
    exact .replies .size
  · exact ⟨_, rfl, serves_dictKeys hd ht _ _⟩

end Heap

namespace OperandStack

variable {s s' : OperandStack} {v w : Value}

theorem peek_of_back? (h : s.values.back? = some v) : s.peek 0 = .ok v := by
  obtain ⟨hlt, rfl⟩ := Array.getElem?_eq_some_iff.mp (Array.back?_eq_getElem? ▸ h)
  rw [peek_of_lt (by omega)]
  rfl

theorem peek_push (h : s.push v = .ok s') : s'.peek 0 = .ok v := by
  obtain ⟨rfl, -⟩ := push_eq_ok h
  rw [peek_of_lt] <;> simp

/-- What is left when one operand is popped is one nearer to the top. -/
theorem peek_pop (h : s.pop = .ok (v, s')) (n : Nat) : s'.peek n = s.peek (n + 1) := by
  obtain ⟨rfl, hback⟩ := pop_eq_ok h
  by_cases hn : n + 1 < s.values.size
  · rw [peek_of_lt hn, peek_of_lt (by simp; omega)]
    simp only [Array.size_pop, Array.getElem_pop]
    congr 2
    omega
  · rw [peek_of_le (Nat.not_lt.mp hn), peek_of_le (by simp; omega)]

end OperandStack

namespace Machine

open Heap (Serves)

variable {host : HostFunctions} {h : Heap} {m m₁ m' : Machine} {d : Handle}
  {t : Table Value Value} {q : Query Value} {v : Value}

/-! ## Results on top of the operands -/

theorem exists_push {n k : Nat} (hr : HasRoom n (k + 1) m) (v : Value) :
    ∃ m', push v m = .ok () m' ∧ m'.heap = m.heap ∧ peek 0 m' = .ok v m' := by
  cases hp : push v m with
  | error e m' => exact absurd hp (hr.push_ne_error v)
  | ok u m' =>
    obtain ⟨t, ht, -⟩ := hr
    obtain ⟨stack, hs, rfl⟩ := changeStack_eq_ok ht hp
    exact ⟨_, rfl, rfl, (peek_iff rfl).mpr (OperandStack.peek_push hs)⟩

theorem peek_of_replaceTop {n : Nat} {u : Unit} (h : replaceTop n v m = .ok u m') :
    peek 0 m' = .ok v m' := by
  cases ht : m.running with
  | none => simp [replaceTop, changeStack, ht] at h
  | some t =>
    obtain ⟨stack, hs, rfl⟩ := changeStack_eq_ok ht h
    exact (peek_iff rfl).mpr (OperandStack.peek_push (OperandStack.replaceTop_eq_ok hs).2)

theorem exists_replaceTop {n k : Nat} (hr : HasRoom (n + 1) k m) (v : Value) :
    ∃ m', replaceTop (n + 1) v m = .ok () m' ∧ m'.heap = m.heap ∧ peek 0 m' = .ok v m' := by
  cases hp : replaceTop (n + 1) v m with
  | error e m' => exact absurd hp (hr.replaceTop_ne_error v)
  | ok u m' => exact ⟨m', rfl, heap_of_changeStack hp, peek_of_replaceTop hp⟩

/-- What is popped was on top of what is left. -/
theorem peek_of_pop (hp : pop m = .ok v m₁) : peek 0 m = .ok v m ∧ m₁.heap = m.heap ∧
    ∀ n w, peek n m₁ = .ok w m₁ ↔ peek (n + 1) m = .ok w m := by
  cases ht : m.running with
  | none => simp [pop, ht] at hp
  | some t =>
    obtain ⟨stack, hs, rfl⟩ := pop_eq_ok ht hp
    obtain ⟨rfl, hback⟩ := OperandStack.pop_eq_ok hs
    refine ⟨(peek_iff ht).mpr (OperandStack.peek_of_back? hback), rfl, fun n w => ?_⟩
    rw [peek_iff ht, peek_iff rfl]
    exact iff_of_eq (congrArg (· = _) (OperandStack.peek_pop hs n))

theorem exists_pop (hp : peek 0 m = .ok v m) : ∃ m₁, pop m = .ok v m₁ := by
  cases ht : m.running with
  | none => simp [peek, ht] at hp
  | some t =>
    obtain ⟨id, ⟨values, limit⟩, frames, caller, kind, state, module⟩ := t
    have hback := OperandStack.back?_of_peek ((peek_iff ht).mp hp)
    simp only at hback
    simp only [pop, ht, OperandStack.pop, hback]
    exact ⟨_, rfl⟩

/-- An operand that is there can be taken away. -/
theorem exists_pop_of_peek (hl : InLimit m) (hp : peek 0 m = .ok v m) :
    ∃ m₁, pop m = .ok v m₁ ∧ m₁.heap = m.heap ∧ HasRoom 0 1 m₁ ∧
      ∀ n w, peek (n + 1) m = .ok w m → peek n m₁ = .ok w m₁ := by
  obtain ⟨m₁, hpop⟩ := exists_pop hp
  obtain ⟨-, hheap, hpeek⟩ := peek_of_pop hpop
  exact ⟨m₁, hpop, hheap, .of_pop hl hpop, fun n w => (hpeek n w).mpr⟩

theorem binary_apply {left right : Value} (hl : InLimit m) (hright : peek 0 m = .ok right m)
    (hleft : peek 1 m = .ok left m) (f : Value → Value → Act Value) :
    ∃ m₁, m₁.heap = m.heap ∧ HasRoom 0 1 m₁ ∧ binary f m = (f left right >>= push) m₁ := by
  obtain ⟨m₁, hpop, hheap, hroom, hpeek⟩ := exists_pop_of_peek hl hright
  obtain ⟨m₂, hpop', hheap', hroom', -⟩ := exists_pop_of_peek hroom.inLimit (hpeek 0 _ hleft)
  refine ⟨m₂, hheap'.trans hheap, hroom', ?_⟩
  simp only [binary, bind_apply, hpop, hpop']

theorem writeItem_apply {target index : Value} (hl : InLimit m) (hv : peek 0 m = .ok v m)
    (hindex : peek 1 m = .ok index m) (htarget : peek 2 m = .ok target m) :
    ∃ m₁, m₁.heap = m.heap ∧ HasRoom 0 1 m₁ ∧
      writeItem m = (do Heap.setItem target index v; push v : Act Unit) m₁ := by
  obtain ⟨m₁, hpop, hheap, hroom, hpeek⟩ := exists_pop_of_peek hl hv
  obtain ⟨m₂, hpop', hheap', hroom', hpeek'⟩ :=
    exists_pop_of_peek hroom.inLimit (hpeek 0 _ hindex)
  obtain ⟨m₃, hpop'', hheap'', hroom'', -⟩ :=
    exists_pop_of_peek hroom'.inLimit (hpeek' 0 _ (hpeek 1 _ htarget))
  refine ⟨m₃, hheap''.trans (hheap'.trans hheap), hroom'', ?_⟩
  simp only [writeItem, bind_apply, hpop, hpop', hpop'']

/-! ## Instructions -/

theorem serves_lift {y : Heap.Act Value} (hy : Serves id m.heap d t q (y m.heap)) :
    Serves Machine.heap m.heap d t q ((liftM y : Act Value) m) := by
  rw [lift_apply]
  generalize y m.heap = result at hy
  cases hy with
  | replies hr => exact .replies hr
  | misses hq hk hh => exact .misses hq hk hh

/-- What is on top of the operands after an action. -/
def topAfter (x : Act Unit) : Act Value := do
  x
  peek 0

theorem topAfter_congr {x y : Act Unit} (h : x m = y m₁) : topAfter x m = topAfter y m₁ := by
  simp only [topAfter, bind_apply, h]

/-- The reply is put where it is found on top of the operands. -/
theorem serves_topAfter {x : Act Value} {f : Value → Act Unit}
    (hx : Serves Machine.heap h d t q (x m)) (hf : ∀ r m₁, x m = .ok r m₁ →
      ∃ m', f r m₁ = .ok () m' ∧ m'.heap = m₁.heap ∧ peek 0 m' = .ok r m') :
    Serves Machine.heap h d t q (topAfter (x >>= f) m) := by
  cases hr : x m with
  | ok r m₁ =>
    obtain ⟨m', hplace, hheap, hpeek⟩ := hf r m₁ hr
    rw [hr] at hx
    simp only [topAfter, bind_apply, hr, hplace, hpeek]
    cases hx with
    | replies hreply => exact .replies (hheap ▸ hreply)
  | error e m₁ =>
    rw [hr] at hx
    simp only [topAfter, bind_apply, hr]
    cases hx with
    | misses hq hk hh => exact .misses hq hk hh

/-- The next instruction asks a dictionary. The key of a subscript is above the dictionary, and
a value to be written is above the key. -/
inductive Consults (m : Machine) (d : Handle) : Query Value → Prop
  | read {k : Value} : Fetches m .subscriptRead .nothing → peek 1 m = .ok (.ofHandle d) m →
      peek 0 m = .ok k m → Consults m d (.read k)
  | write {k v : Value} : Fetches m .subscriptWrite .nothing → peek 2 m = .ok (.ofHandle d) m →
      peek 1 m = .ok k m → peek 0 m = .ok v m → Consults m d (.write k v)
  | call {argc : Nat} {n : Native} {receiver : Option Value} {q : Query Value} :
      RunsNative m argc n receiver → Poses m argc n receiver d q → Consults m d q

theorem RunsNative.hasRoom {argc : Nat} {n : Native} {receiver : Option Value}
    (hr : RunsNative m argc n receiver) (hl : InLimit m) : HasRoom (argc + 1) 0 m := by
  cases hr with
  | call _ hpeek => exact (HasRoom.of_peek hl hpeek).2
  | invoke _ hpeek => exact (HasRoom.of_peek hl hpeek).2

theorem hasRoom_lift {α : Type} {a : α} {n k : Nat} {y : Heap.Act α} (hr : HasRoom n k m)
    (hy : (liftM y : Act α) m = .ok a m₁) : HasRoom n k m₁ := by
  rw [lift_apply] at hy
  split at hy <;> cases hy
  exact hr.congr rfl

theorem serves_callNative {argc : Nat} {n : Native} {receiver : Option Value}
    (hp : Poses m argc n receiver d q) (hat : AtCallee argc m m₁) (hroom : HasRoom (argc + 1) 0 m)
    (ht : m.heap.dictionary d = .ok t) :
    Serves Machine.heap m.heap d t q (topAfter (callNative host n argc receiver) m₁) := by
  obtain ⟨harity, htop, hcode, hargs, hq⟩ := hp
  rw [← hat.heap] at ht ⊢
  obtain ⟨y, hrun, hserves⟩ := Heap.serves_builtin (Value.toHandle?_ofHandle d) ht hq
  have hcall : callNative host n argc receiver m₁ =
      ((liftM y : Act Value) >>= replaceTop (argc + 1)) m₁ := by
    simp only [callNative, harity, bind_apply, (hat.top _).mpr htop, runNative, hcode, hargs, hrun]
  rw [topAfter_congr hcall]
  exact serves_topAfter (serves_lift hserves) fun r m₂ hr =>
    exists_replaceTop (hasRoom_lift (hat.room hroom) hr) r

theorem perform_subscriptRead : perform host .subscriptRead .nothing =
    binary fun target index => liftM (Heap.item target index) := rfl

theorem perform_subscriptWrite : perform host .subscriptWrite .nothing = writeItem := rfl

theorem serves_read {target k : Value} (hx : Fetches m .subscriptRead .nothing)
    (hd : target.toHandle? = some d) (htarget : peek 1 m = .ok target m)
    (hkey : peek 0 m = .ok k m) (hl : InLimit m) (ht : m.heap.dictionary d = .ok t) :
    Serves Machine.heap m.heap d t (.read k) (topAfter (instruction host) m) := by
  obtain ⟨m₁, hheap, hroom, hbinary⟩ := binary_apply hl.skip (peek_skip.mpr hkey)
    (peek_skip.mpr htarget) fun target index => liftM (Heap.item target index)
  change m₁.heap = m.heap at hheap
  rw [topAfter_congr (hx.instruction_eq.trans (perform_subscriptRead ▸ hbinary)), ← hheap]
  refine serves_topAfter (serves_lift (Heap.serves_item hd (hheap ▸ ht) k)) ?_
  exact fun r m₂ hr => exists_push (hasRoom_lift hroom hr) r

theorem serves_write {target k : Value} (hx : Fetches m .subscriptWrite .nothing)
    (hd : target.toHandle? = some d) (htarget : peek 2 m = .ok target m)
    (hkey : peek 1 m = .ok k m) (hv : peek 0 m = .ok v m) (hl : InLimit m)
    (ht : m.heap.dictionary d = .ok t) :
    Serves Machine.heap m.heap d t (.write k v) (topAfter (instruction host) m) := by
  obtain ⟨m₁, hheap, hroom, hwrite⟩ := writeItem_apply hl.skip (peek_skip.mpr hv)
    (peek_skip.mpr hkey) (peek_skip.mpr htarget)
  change m₁.heap = m.heap at hheap
  have hset : (liftM (Heap.setItem target k v) : Act Unit) m₁ = .ok () { m₁ with
      heap := m₁.heap.update d (Heap.changeDictionary (·.insert k v)) } := by
    rw [lift_apply, Heap.setItem_apply hd (hheap ▸ ht)]
  obtain ⟨m', hpush, hheap', hpeek⟩ := exists_push (hasRoom_lift hroom hset) v
  rw [topAfter_congr (hx.instruction_eq.trans (perform_subscriptWrite ▸ hwrite)), ← hheap]
  simp only [topAfter, bind_apply, hset, hpush, hpeek]
  exact .replies (hheap' ▸ .write k v)

/-- A dictionary serves an instruction that asks it. -/
theorem Consults.serves (hc : Consults m d q) (hl : InLimit m) (ht : m.heap.dictionary d = .ok t) :
    Serves Machine.heap m.heap d t q (topAfter (instruction host) m) := by
  cases hc with
  | read hx htarget hkey => exact serves_read hx (Value.toHandle?_ofHandle d) htarget hkey hl ht
  | write hx htarget hkey hv =>
    exact serves_write hx (Value.toHandle?_ofHandle d) htarget hkey hv hl ht
  | call hr hp =>
    obtain ⟨m₁, hat, hinst⟩ := hr.instruction_eq
    rw [topAfter_congr (hinst host)]
    exact serves_callNative hp hat (hr.hasRoom hl) ht

/-- No function of the host is called. -/
theorem Consults.instruction_eq (hc : Consults m d q) :
    instruction host m = instruction HostFunctions.none m := by
  cases hc with
  | read hx => rw [hx.instruction_eq, hx.instruction_eq, perform_subscriptRead,
      perform_subscriptRead]
  | write hx => rw [hx.instruction_eq, hx.instruction_eq, perform_subscriptWrite,
      perform_subscriptWrite]
  | call hr hp =>
    obtain ⟨m₁, -, hinst⟩ := hr.instruction_eq
    obtain ⟨-, -, hcode, -, -⟩ := hp
    rw [hinst host, hinst HostFunctions.none, callNative_builtin host hcode]

end Machine

end FiberMachine
