import FiberMachine.Heap.Items
import FiberMachine.Heap.Load
import FiberMachine.Proofs.Ties.Display

/-!
# Containers side by side

What is written through tied handles stays tied: items, entries, slices and sums agree,
and so do loading a program and making an instance.
-/

namespace FiberMachine

variable {ι : Type} {T : Ties ι} {h : ι → Heap} {k : Kind} {r : ι → Handle} {v w : ι → Value}

open Ties

/-! ## Changes of objects -/

namespace Ties

theorem objects_changeArray (f : ι → Array Value → Array Value)
    (hf : ∀ items, T.Arrays items → T.Arrays fun i => f i (items i)) {o : ι → Object}
    (ho : T.Objects .array o) : T.Objects .array fun i => Heap.changeArray (f i) (o i) := by
  cases ho with
  | mk hm hb =>
    cases hb with
    | array hi => exact .mk hm (Arrays.body (hf _ (by simpa only [Arrays] using hi)))

theorem objects_changeDictionary (f : ι → Table Value Value → Table Value Value)
    (hf : ∀ entries, Rows T.Values T.Values entries →
      Rows T.Values T.Values fun i => f i (entries i)) {o : ι → Object}
    (ho : T.Objects .dictionary o) :
    T.Objects .dictionary fun i => Heap.changeDictionary (f i) (o i) := by
  cases ho with
  | mk hm hb =>
    cases hb with
    | dictionary he => exact .mk hm (.dictionary (hf _ he))

theorem objects_changeFields (f : ι → Members → Members)
    (hf : ∀ fields, T.Fields fields → T.Fields fun i => f i (fields i)) {o : ι → Object}
    (ho : T.Objects .instanceOf o) :
    T.Objects .instanceOf fun i => Heap.changeFields (f i) (o i) := by
  cases ho with
  | mk hm hb =>
    cases hb with
    | instanceOf hc he => exact .mk hm (.instanceOf hc (hf _ he))

theorem objects_withMembers {members : ι → Members} (hm : T.Fields members) {o : ι → Object}
    (ho : T.Objects k o) : T.Objects k fun i => Heap.withMembers (members i) (o i) := by
  cases ho with
  | mk _ hb => exact .mk hm hb

theorem objects_insertMember (hT : T.Heaps h) {name : ι → Handle} (hn : T.handles .text name)
    (hv : T.Values v) {o : ι → Object} (ho : T.Objects k o) :
    T.Objects k fun i => Heap.insertMember (name i) (v i) (o i) := by
  cases ho with
  | mk hm hb => exact .mk (Rows.insert hm (hT.apart_handles .text) hn hv) hb

theorem Arrays.push {items : ι → Array Value} (hi : T.Arrays items) (hv : T.Values v) :
    T.Arrays fun i => (items i).push (v i) := by
  simpa only [Arrays, Array.toList_push] using Each.append hi (.singleton hv)

theorem Arrays.append {items more : ι → Array Value} (hi : T.Arrays items)
    (hm : T.Arrays more) : T.Arrays fun i => items i ++ more i := by
  simpa only [Arrays, Array.toList_append] using Each.append hi hm

theorem Arrays.pop {items : ι → Array Value} (hi : T.Arrays items) :
    T.Arrays fun i => (items i).pop := by
  simpa only [Arrays, Array.toList_pop] using Each.dropLast hi

theorem Arrays.set {items : ι → Array Value} (hi : T.Arrays items) (n : Nat) (hv : T.Values v) :
    T.Arrays fun i => (items i).setIfInBounds n (v i) := by
  simpa only [Arrays, Array.toList_setIfInBounds] using Each.set hi n hv

theorem Arrays.extract {items : ι → Array Value} (hi : T.Arrays items) (first last : Nat) :
    T.Arrays fun i => (items i).extract first last := by
  simpa only [Arrays, Array.toList_extract, List.extract_eq_take_drop] using
    (Each.drop hi first).take (last - first)

theorem Arrays.size {items : ι → Array Value} (hi : T.Arrays items) :
    Same fun i => (items i).size := by
  simpa only [Array.length_toList] using Each.length hi

theorem Arrays.getElem? {items : ι → Array Value} (hi : T.Arrays items) (n : Nat) :
    Maybe T.Values fun i => (items i)[n]? := by
  simpa only [Array.getElem?_toList] using Each.getElem? hi n

theorem settled_minus (n k : Nat) : Settled Same fun _ : ι => Checked.minus n k := by
  refine .of_same ?_
  simp only [Checked.minus]
  split <;> simp [Fault.crash]

theorem Arrays.settled_item {items : ι → Array Value} (hi : T.Arrays items) (n : Nat) :
    Settled T.Values fun i => Checked.item (items i) n := by
  obtain ⟨size, hsize⟩ := hi.size
  rcases (hi.getElem? n).cases with hnone | ⟨v, hv, hsome⟩
  · have hitem : ∀ i, Checked.item (items i) n = .error (.crash (.badIndex n size)) := fun i => by
      have hle := Array.getElem?_eq_none_iff.mp (hnone i)
      simp only [Checked.item_of_le hle, hsize]
    simp only [hitem]
    exact .error nofun
  · have hitem : ∀ i, Checked.item (items i) n = .ok (v i) := fun i => by
      obtain ⟨hlt, hget⟩ := Array.getElem?_eq_some_iff.mp (hsome i)
      rw [Checked.item_of_lt hlt, hget]
    simp only [hitem]
    exact .ok hv

theorem Arrays.settled_setItem {items : ι → Array Value} (hi : T.Arrays items) (n : Nat)
    (hv : T.Values v) : Settled T.Arrays fun i => Checked.setItem (items i) n (v i) := by
  obtain ⟨size, hsize⟩ := hi.size
  simp only [Checked.setItem, hsize]
  split
  · exact .ok (hi.set n hv)
  · exact .error nofun

theorem Arrays.settled_slice {items : ι → Array Value} (hi : T.Arrays items) (first last : Nat) :
    Settled T.Arrays fun i => Checked.slice (items i) first last := by
  obtain ⟨size, hsize⟩ := hi.size
  simp only [Checked.slice, hsize]
  split
  · exact .ok (hi.extract first last)
  · exact .error nofun

end Ties

/-! ## Subscripts -/

theorem settled_integer (hv : T.Values v) (operation : String) :
    Settled Same fun i => Heap.integer operation (v i) := by
  obtain ⟨x, hx⟩ := hv.toFloat?
  obtain ⟨kind, hkind⟩ := hv.scalarKind
  simp only [Heap.integer, hx, hkind]
  cases x with
  | none => exact .error (by simp)
  | some x =>
    simp only
    cases Double.toInt? x with
    | none => exact .error (by simp)
    | some n => exact .ok (.const _)

theorem place_tied (hv : T.Values v) {size : ι → Nat} (hsize : Same size) :
    (∃ j, ∀ i, ∃ hj : j < size i, Heap.place (v i) (size i) = .ok ⟨j, hj⟩) ∨
      ∃ fault : Fault, fault ≠ .dangling ∧ ∀ i, Heap.place (v i) (size i) = .error fault := by
  obtain ⟨n, hn⟩ := hsize
  rcases settled_integer hv "subscript" with ⟨z, ⟨z, hz⟩, hok⟩ | ⟨fault, hfault, herr⟩
  · by_cases hin : 0 ≤ (if z < 0 then n + z else z) ∧ (if z < 0 then n + z else z) < n
    · refine Or.inl ⟨(if z < 0 then n + z else z).toNat, fun i => ⟨by rw [hn]; omega, ?_⟩⟩
      simp only [Heap.place, hok, hz, hn, hin, and_self, ↓reduceDIte]
    · refine Or.inr ⟨.outOfBounds z n, (by simp), fun i => ?_⟩
      simp only [Heap.place, hok, hz, hn, hin, ↓reduceDIte]
  · exact Or.inr ⟨fault, hfault, fun i => by simp only [Heap.place, herr]⟩

theorem agree_itemOf [Inhabited ι] (hT : T.Heaps h) (hv : T.Values v) {b : ι → Body} (hb : T.Bodies k b) :
    Agree h (fun i => Heap.itemOf (v i) (b i)) (Grown T fun T' w => T'.Values w) := by
  have hn := hb.kindName
  cases hb with
  | @array items hi =>
    have hi' : T.Arrays fun i => (items i).toArray := by simpa only [Arrays] using hi
    rcases place_tied hv hi'.size with ⟨j, hj⟩ | ⟨fault, hfault, herr⟩
    · rcases (hi'.getElem? j).cases with hnone | ⟨w, hw, hsome⟩
      · obtain ⟨hlt, -⟩ := hj default
        have hle := Array.getElem?_eq_none_iff.mp (hnone default)
        omega
      · have hitem : ∀ i, Heap.itemOf (v i) (.array (items i).toArray) = pure (w i) := by
          intro i
          obtain ⟨hlt, hplace⟩ := hj i
          obtain ⟨_, hget⟩ := Array.getElem?_eq_some_iff.mp (hsome i)
          simp only [Heap.itemOf, hplace, ← hget, liftM_ok_bind, Fin.getElem_fin]
        simp only [hitem]
        exact agree_pure hT ⟨.refl T, hw⟩
    · have hitem : ∀ i, Heap.itemOf (v i) (.array (items i).toArray) = throw fault := by
        intro i
        simp only [Heap.itemOf, herr i, liftM_error_bind]
      simp only [hitem]
      exact agree_throw hT hfault
  | dictionary he =>
    simp only [Heap.itemOf]
    rcases (he.find? hT.apart_values hv).cases with hnone | ⟨w, hw, hsome⟩
    · simp only [hnone]
      refine agree_get ?_
      obtain ⟨key, hkey⟩ := hT.display hv
      simp only [hkey]
      exact agree_throw hT (by simp)
    · simp only [hsome]
      exact agree_pure hT ⟨.refl T, hw⟩
  | text s =>
    simp only [Heap.itemOf]
    rcases place_tied hv (.const s.toList.length) with ⟨j, hj⟩ | ⟨fault, hfault, herr⟩
    · obtain ⟨hlt, -⟩ := hj default
      have hplace : ∀ i, Heap.place (v i) s.toList.length = .ok ⟨j, hlt⟩ := by
        intro i
        obtain ⟨_, hplace⟩ := hj i
        exact hplace
      simp only [hplace, liftM_ok_bind]
      refine (agree_intern hT (String.singleton s.toList[j])).grow fun T' r h' _ hT' hr => ?_
      exact agree_pure hT' ⟨.refl T', .object hr⟩
    · simp only [herr, liftM_error_bind]
      exact agree_throw hT hfault
  | _ => exact agree_mismatch hT hn

theorem agree_item [Inhabited ι] (hT : T.Heaps h) (hv : T.Values v) (hw : T.Values w) :
    Agree h (fun i => Heap.item (v i) (w i)) (Grown T fun T' u => T'.Values u) := by
  simp only [Heap.item]
  rcases hv.handle with hs | ⟨k, r, hr, hv'⟩
  · simp only [hs]
    exact agree_mismatch hT hv.scalarKind
  · simp only [hv']
    refine agree_get ((agree_settled hT (hT.get hr)).next fun o h' hT' ho => ?_)
    cases ho with
    | mk _ hb => exact agree_itemOf hT' hw hb

/-- What is written at a subscript. -/
theorem settled_itemChange (hT : T.Heaps h) (hv : T.Values v) (hw : T.Values w) {b : ι → Body}
    (hb : T.Bodies k b) :
    Settled (fun f : ι → Object → Object => (k ≠ .text ∧ k ≠ .function) ∧
        ∀ o, T.Objects k o → T.Objects k fun i => f i (o i))
      fun i => Heap.itemChange (v i) (w i) (b i) := by
  have hn := hb.kindName
  cases hb with
  | @array items hi =>
    have hi' : T.Arrays fun i => (items i).toArray := by simpa only [Arrays] using hi
    rcases place_tied hv hi'.size with ⟨j, hj⟩ | ⟨fault, hfault, herr⟩
    · refine Or.inl ⟨fun i => Heap.changeArray fun items => items.setIfInBounds j (w i),
        ⟨⟨(by simp), (by simp)⟩, fun o ho => objects_changeArray (fun i items => items.setIfInBounds j (w i))
          (fun _ hi => hi.set j hw) ho⟩, fun i => ?_⟩
      obtain ⟨hlt, hplace⟩ := hj i
      simp only [Heap.itemChange, hplace]
      rfl
    · refine Or.inr ⟨fault, hfault, fun i => ?_⟩
      simp only [Heap.itemChange, herr i]
      rfl
  | dictionary _ =>
    refine Or.inl ⟨fun i => Heap.changeDictionary fun entries => entries.insert (v i) (w i),
      ⟨⟨(by simp), (by simp)⟩, fun o ho => ?_⟩, fun _ => rfl⟩
    exact objects_changeDictionary (fun i entries => entries.insert (v i) (w i))
      (fun _ he => he.insert hT.apart_values hv hw) ho
  | _ => exact .mismatch hn

theorem agree_setItem (hT : T.Heaps h) {u : ι → Value} (hu : T.Values u) (hv : T.Values v)
    (hw : T.Values w) :
    Agree h (fun i => Heap.setItem (u i) (v i) (w i)) (Stays T fun _ => True) := by
  simp only [Heap.setItem]
  rcases hu.handle with hs | ⟨k, r, hr, hu'⟩
  · simp only [hs]
    exact agree_mismatch hT hu.scalarKind
  · simp only [hu']
    refine agree_get ((agree_settled hT (hT.get hr)).next fun o h' (hT' : T.Heaps h') ho => ?_)
    cases ho with
    | mk _ hb =>
      refine (agree_settled hT' (settled_itemChange hT' hv hw hb)).next fun f h' hT' hf => ?_
      exact agree_change hT' hr hf.1.1 hf.1.2 hf.2

theorem settled_sliceBound (hv : T.Values v) {size : ι → Nat} (hsize : Same size) :
    Settled Same fun i => Heap.sliceBound (v i) (size i) := by
  obtain ⟨n, hn⟩ := hsize
  rcases settled_integer hv "slice" with ⟨z, ⟨z, hz⟩, hok⟩ | ⟨fault, hfault, herr⟩
  · simp only [Heap.sliceBound, hok, hz, hn]
    split
    · exact .ok (.const _)
    · exact .error nofun
  · simp only [Heap.sliceBound, herr]
    exact .error hfault

theorem settled_sliceOf {items : ι → Array Value} (hi : T.Arrays items) (hv : T.Values v)
    (hw : T.Values w) : Settled T.Arrays fun i => Heap.sliceOf (items i) (v i) (w i) := by
  refine (settled_sliceBound hv hi.size).bind fun first hfirst => ?_
  refine (settled_sliceBound hw hi.size).bind fun last hlast => ?_
  obtain ⟨n, hn⟩ := hfirst
  obtain ⟨m, hm⟩ := hlast
  simp only [hn, hm]
  split
  · exact .error nofun
  · exact hi.settled_slice n m

theorem agree_slice (hT : T.Heaps h) {u : ι → Value} (hu : T.Values u) (hv : T.Values v)
    (hw : T.Values w) :
    Agree h (fun i => Heap.slice (u i) (v i) (w i)) (Grown T fun T' a => T'.Values a) := by
  refine agree_get ?_
  rcases (hT.arrayOf? hu).cases with hnone | ⟨items, hi, hsome⟩
  · simp only [hnone]
    exact agree_mismatch hT (hT.typeName hu)
  · simp only [hsome]
    refine (agree_settled hT (settled_sliceOf hi hv hw)).next fun part h' hT' hpart => ?_
    refine (agree_alloc hT' (Arrays.body hpart) nofun).grow fun T'' r h'' _ hT'' hr => ?_
    exact agree_pure hT'' ⟨.refl _, .object hr⟩

/-! ## Sums -/

theorem agree_append (hT : T.Heaps h) (hv : T.Values v) (hw : T.Values w) :
    Agree h (fun i => Heap.append (v i) (w i)) (Stays T T.Values) := by
  have hnames := (hT.typeName hv).map₂ (hT.typeName hw) fun a b => a ++ " and " ++ b
  refine agree_get ?_
  rcases hv.handle with hs | ⟨k, r, hr, hv'⟩
  · simp only [hs]
    exact agree_mismatch hT hnames
  · simp only [hv', hT.kindOf?_handle hr hv']
    cases k with
    | array =>
      have hmore : T.Arrays fun i => ((h i).arrayOf? (w i)).getD #[w i] :=
        (hT.arrayOf? hw).getD (Each.singleton hw)
      refine (agree_change hT hr (by simp) (by simp) fun o ho =>
        objects_changeArray (fun i items => items ++ ((h i).arrayOf? (w i)).getD #[w i])
          (fun _ hi => Arrays.append hi hmore) ho).next fun _ h' hT' _ => ?_
      exact agree_pure hT' ⟨rfl, hv⟩
    | _ => exact agree_mismatch hT hnames

/-- What becomes of two values that are not both numbers. -/
theorem agree_joined (hT : T.Heaps h) (hv : T.Values v) (hw : T.Values w) :
    Agree h (fun i => get >>= fun h => match h.textOf? (v i), h.textOf? (w i) with
      | some s, some t => do return .ofHandle (← Heap.run (·.intern (s ++ t)))
      | _, _ => Heap.append (v i) (w i)) (Grown T fun T' a => T'.Values a) := by
  obtain ⟨s, hs⟩ := hT.textOf? hv
  obtain ⟨t, ht⟩ := hT.textOf? hw
  have happend : Agree h (fun i => Heap.append (v i) (w i)) (Grown T fun T' a => T'.Values a) :=
    (agree_append hT hv hw).grown fun _ => id
  refine agree_get ?_
  simp only [hs, ht]
  cases s with
  | none => exact happend
  | some s =>
    cases t with
    | none => exact happend
    | some t =>
      refine (agree_intern hT (s ++ t)).grow fun T' r h' _ hT' hr => ?_
      exact agree_pure hT' ⟨.refl _, .object hr⟩

theorem agree_sum (hT : T.Heaps h) (hv : T.Values v) (hw : T.Values w) :
    Agree h (fun i => Heap.sum (v i) (w i)) (Grown T fun T' a => T'.Values a) := by
  obtain ⟨x, hx⟩ := hv.toFloat?
  obtain ⟨y, hy⟩ := hw.toFloat?
  have htexts := agree_joined hT hv hw
  simp only [Heap.sum, hx, hy]
  cases x with
  | none => exact htexts
  | some x =>
    cases y with
    | none => exact htexts
    | some y => exact agree_pure hT ⟨.refl _, values_ofFloat _⟩

/-! ## Going through the items -/

theorem Span.advance_ne_dangling (s : Span) (cursor : Float) :
    s.advance cursor ≠ .error .dangling := by
  simp only [advance]
  split <;> simp

theorem settled_nextItem (hT : T.Heaps h) (hv : T.Values v) (hw : T.Values w) :
    Settled (Maybe fun p => T.Values (fun i => (p i).1) ∧ T.Values fun i => (p i).2)
      fun i => (h i).nextItem (v i) (w i) := by
  obtain ⟨x, hx⟩ := hw.toFloat?
  simp only [Heap.nextItem, hx]
  rcases hv.handle with hs | ⟨k, r, hr, hv'⟩
  · simp only [hs]
    exact .mismatch hv.scalarKind
  · simp only [hv']
    refine (hT.get hr).bind fun o ho => ?_
    cases ho with
    | mk _ hb =>
      have hn := hb.kindName
      cases hb with
      | @array items hi =>
        have hi' : T.Arrays fun i => (items i).toArray := by simpa only [Arrays] using hi
        exact .ok ((hi'.getElem? _).map (fun _ v => (v, _)) fun _ hv => ⟨hv, values_ofFloat _⟩)
      | span s =>
        simp only
        split
        · exact .ok .none
        · cases hadvance : s.advance (x.getD s.start) with
          | ok next => exact .ok (.some ⟨values_ofFloat _, values_ofFloat _⟩)
          | error fault => exact .error fun he => s.advance_ne_dangling _ (he ▸ hadvance)
      | _ => exact .mismatch hn

/-! ## Instances and arrays -/

theorem agree_newInstance (hT : T.Heaps h) (hr : T.handles .classObject r) :
    Agree h (fun i => Heap.newInstance (r i)) (Grown T fun T' s => T'.handles .instanceOf s) := by
  refine agree_get ((agree_settled hT (hT.get hr)).next fun o h₁ (hT₁ : T.Heaps h₁) ho => ?_)
  cases ho with
  | mk hm _ =>
    refine (agree_alloc hT₁ (.instanceOf hr .empty) nofun).grow fun T₂ s h₂ hle hT₂ hs => ?_
    refine (agree_change hT₂ hs nofun nofun fun p hp =>
      objects_withMembers (hm.mono hle) hp).next fun _ h₃ hT₃ _ => ?_
    exact agree_pure hT₃ ⟨.refl _, hs⟩

theorem agree_pushItem (hT : T.Heaps h) (hr : T.handles k r) (hv : T.Values v) :
    Agree h (fun i => Heap.pushItem (r i) (v i)) (Stays T fun _ => True) := by
  refine agree_get ((agree_settled hT (hT.get hr)).nextBy
    (fun _ _ => by split <;> infer_instance) fun o h₁ (hT₁ : T.Heaps h₁) ho => ?_)
  simp only [ho.kind]
  cases k with
  | array =>
    exact agree_change hT₁ hr (by simp) (by simp) fun o ho =>
      objects_changeArray (fun i items => items.push (v i)) (fun _ hi => hi.push hv) ho
  | _ => exact agree_throw hT₁ (by simp)

/-! ## Loading -/

variable {module : ι → Option Handle}

theorem size_le_loads (module : Option Handle) (h : Heap) (cs : List Constant) :
    h.slots.size ≤ (Heap.loadConstants module h cs).1.slots.size :=
  Heap.row_size_le (Heap.row_loadConstants module h cs)

mutual

theorem tied_loadConstant {T : Ties ι} {h : ι → Heap} (hT : T.Heaps h)
    (hm : Maybe (T.handles .module) module) : ∀ c,
    (∀ i, (Heap.loadConstant (module i) (h i) c).1.slots.size ≤ Heap.slotLimit) →
    ∃ T', T.Within T' ∧ T'.Heaps (fun i => (Heap.loadConstant (module i) (h i) c).1) ∧
      T'.Values fun i => (Heap.loadConstant (module i) (h i) c).2
  | .nil, _ => ⟨T, .refl T, hT, values_nil⟩
  | .bool b, _ => ⟨T, .refl T, hT, values_ofBool b⟩
  | .number x, _ => ⟨T, .refl T, hT, values_ofFloat x⟩
  | .text s, hfit => by
    obtain ⟨T', hle, hT', hr⟩ := hT.intern s hfit
    exact ⟨T', hle, hT', .object hr⟩
  | .function p, hfit => by
    obtain ⟨T', hle, hT', hr⟩ := tied_load hT hm p hfit
    exact ⟨T', hle, hT', .object hr⟩

theorem tied_loadConstants {T : Ties ι} {h : ι → Heap} (hT : T.Heaps h)
    (hm : Maybe (T.handles .module) module) : ∀ cs,
    (∀ i, (Heap.loadConstants (module i) (h i) cs).1.slots.size ≤ Heap.slotLimit) →
    ∃ T', T.Within T' ∧ T'.Heaps (fun i => (Heap.loadConstants (module i) (h i) cs).1) ∧
      Each T'.Values fun i => (Heap.loadConstants (module i) (h i) cs).2
  | [], _ => ⟨T, .refl T, hT, .nil⟩
  | c :: rest, hfit => by
    obtain ⟨T₁, hle, hT₁, hv⟩ := tied_loadConstant hT hm c fun i =>
      Nat.le_trans (size_le_loads (module i) _ rest) (hfit i)
    obtain ⟨T₂, hle', hT₂, hvs⟩ := tied_loadConstants hT₁ (hle.maybe hm) rest hfit
    exact ⟨T₂, hle.trans hle', hT₂, .cons (hv.mono hle') hvs⟩

theorem tied_load {T : Ties ι} {h : ι → Heap} (hT : T.Heaps h)
    (hm : Maybe (T.handles .module) module) : ∀ p,
    (∀ i, (Heap.load (module i) (h i) p).1.slots.size ≤ Heap.slotLimit) →
    ∃ T', T.Within T' ∧ T'.Heaps (fun i => (Heap.load (module i) (h i) p).1) ∧
      T'.handles .function fun i => (Heap.load (module i) (h i) p).2
  | ⟨name, arity, isAsync, code, constants, lines⟩, hfit => by
    simp only [Heap.load] at hfit ⊢
    have hfitName := fun i => Nat.le_trans (Heap.size_le_alloc _ _) (hfit i)
    obtain ⟨T₁, hle, hT₁, hvs⟩ := tied_loadConstants hT hm constants fun i =>
      Nat.le_trans (Heap.size_le_intern _ name) (hfitName i)
    obtain ⟨T₂, hle', hT₂, hname⟩ := hT₁.intern name hfitName
    obtain ⟨T₃, hle'', hT₃, hr⟩ := hT₂.alloc
      (.function (.mk hname (hle'.each hvs) ((hle.trans hle').maybe hm))) nofun hfit
    exact ⟨T₃, (hle.trans hle').trans hle'', hT₃, hr⟩

end

theorem agree_load (hT : T.Heaps h) (hm : Maybe (T.handles .module) module) (p : Prototype) :
    Agree h (fun i => Heap.run (·.load (module i) p))
      (Grown T fun T' r => T'.handles .function r) := by
  intro hfit
  obtain ⟨T', hle, hT', hr⟩ := tied_load hT hm p hfit
  exact Or.inl ⟨T', _, _, hT', ⟨hle, hr⟩, fun _ => rfl⟩

end FiberMachine
