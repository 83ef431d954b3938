import FiberMachine.Proofs.Ties.Natives

/-!
# JSON side by side

A JSON tree becomes tied values, and tied values become one JSON tree.
-/

namespace FiberMachine

variable {ι : Type} {T : Ties ι} {h : ι → Heap} {k : Kind} {v w : ι → Value}

open Ties

/-! ## Values from JSON -/

mutual

theorem tied_ofJson {T : Ties ι} {h : ι → Heap} (hT : T.Heaps h) : ∀ j,
    (∀ i, (Heap.ofJson (h i) j).1.slots.size ≤ Heap.slotLimit) →
    ∃ T', T.Within T' ∧ T'.Heaps (fun i => (Heap.ofJson (h i) j).1) ∧
      T'.Values fun i => (Heap.ofJson (h i) j).2
  | .null, _ => by
    simp only [Heap.ofJson]
    exact ⟨T, .refl T, hT, values_nil⟩
  | .bool b, _ => by
    simp only [Heap.ofJson]
    exact ⟨T, .refl T, hT, values_ofBool b⟩
  | .number x, _ => by
    simp only [Heap.ofJson]
    exact ⟨T, .refl T, hT, values_ofFloat x⟩
  | .text s, hfit => by
    simp only [Heap.ofJson] at hfit ⊢
    obtain ⟨T', hle, hT', hr⟩ := hT.intern s hfit
    exact ⟨T', hle, hT', .object hr⟩
  | .array items, hfit => by
    simp only [Heap.ofJson] at hfit ⊢
    obtain ⟨T₁, hle, hT₁, hvs⟩ := tied_ofJsonItems hT items fun i =>
      Nat.le_trans (Heap.size_le_alloc _ _) (hfit i)
    obtain ⟨T₂, hle', hT₂, hr⟩ := hT₁.alloc (.array hvs) nofun hfit
    exact ⟨T₂, hle.trans hle', hT₂, .object hr⟩
  | .object entries, hfit => by
    simp only [Heap.ofJson] at hfit ⊢
    obtain ⟨T₁, hle, hT₁, hr⟩ := hT.alloc (.dictionary .empty) nofun fun i =>
      Nat.le_trans (Heap.size_le_ofJsonEntries _ _ entries) (hfit i)
    obtain ⟨T₂, hle', hT₂⟩ := tied_ofJsonEntries hT₁ hr entries hfit
    exact ⟨T₂, hle.trans hle', hT₂, .object (hle'.handles hr)⟩

theorem tied_ofJsonItems {T : Ties ι} {h : ι → Heap} (hT : T.Heaps h) : ∀ items,
    (∀ i, (Heap.ofJsonItems (h i) items).1.slots.size ≤ Heap.slotLimit) →
    ∃ T', T.Within T' ∧ T'.Heaps (fun i => (Heap.ofJsonItems (h i) items).1) ∧
      Each T'.Values fun i => (Heap.ofJsonItems (h i) items).2
  | [], _ => by
    simp only [Heap.ofJsonItems]
    exact ⟨T, .refl T, hT, .nil⟩
  | j :: rest, hfit => by
    simp only [Heap.ofJsonItems] at hfit ⊢
    obtain ⟨T₁, hle, hT₁, hv⟩ := tied_ofJson hT j fun i =>
      Nat.le_trans (Heap.size_le_ofJsonItems _ rest) (hfit i)
    obtain ⟨T₂, hle', hT₂, hvs⟩ := tied_ofJsonItems hT₁ rest hfit
    exact ⟨T₂, hle.trans hle', hT₂, .cons (hv.mono hle') hvs⟩

theorem tied_ofJsonEntries {T : Ties ι} {h : ι → Heap} (hT : T.Heaps h) {r : ι → Handle}
    (hr : T.handles .dictionary r) : ∀ entries,
    (∀ i, (Heap.ofJsonEntries (h i) (r i) entries).slots.size ≤ Heap.slotLimit) →
    ∃ T', T.Within T' ∧ T'.Heaps fun i => Heap.ofJsonEntries (h i) (r i) entries
  | [], _ => by
    simp only [Heap.ofJsonEntries]
    exact ⟨T, .refl T, hT⟩
  | (key, j) :: rest, hfit => by
    simp only [Heap.ofJsonEntries] at hfit ⊢
    have hfitRest := fun i => Nat.le_trans (Heap.size_le_ofJsonEntries _ (r i) rest) (hfit i)
    simp only [Heap.size_update] at hfitRest
    obtain ⟨T₁, hle, hT₁, hkey⟩ := hT.intern key fun i =>
      Nat.le_trans (Heap.size_le_ofJson _ j) (hfitRest i)
    obtain ⟨T₂, hle', hT₂, hv⟩ := tied_ofJson hT₁ j hfitRest
    have hr₂ := (hle.trans hle').handles hr
    have hT₃ := hT₂.update hr₂ nofun nofun fun o ho => objects_changeDictionary
      (fun i entries => entries.insert (.ofHandle ((h i).intern key).2)
        (Heap.ofJson ((h i).intern key).1 j).2)
      (fun _ he => he.insert hT₂.apart_values (.object (hle'.handles hkey)) hv) ho
    obtain ⟨T₃, hle'', hT₄⟩ := tied_ofJsonEntries hT₃ hr₂ rest hfit
    exact ⟨T₃, (hle.trans hle').trans hle'', hT₄⟩

end

/-! ## JSON from values -/

theorem Each.settled_mapM {α β : Type} {R : (ι → α) → Prop} {xs : ι → List α} (hxs : Each R xs)
    {f : ι → α → Except Fault β} (h : ∀ a, R a → Settled Same fun i => f i (a i)) :
    Settled Same fun i => (xs i).mapM (f i) := by
  obtain ⟨l, hl, hxs⟩ := hxs
  simp only [hxs]
  clear hxs
  induction l with
  | nil =>
    simp only [List.map_nil, List.mapM_nil]
    exact .ok (.const [])
  | cons a l ih =>
    simp only [List.map_cons, List.mapM_cons]
    refine (h a (hl a (List.mem_cons_self ..))).bind fun b hb => ?_
    refine (ih fun c hc => hl c (List.mem_cons_of_mem _ hc)).bind fun rest hrest => ?_
    exact .ok (hb.map₂ hrest fun b rest => b :: rest)

theorem settled_jsonObject {α : Type} {K : (ι → α) → Prop} {entries : ι → List (α × Value)}
    (he : Each (fun e => K (fun i => (e i).1) ∧ T.Values fun i => (e i).2) entries)
    {key : ι → α → Except Fault String} (hkey : ∀ a, K a → Settled Same fun i => key i (a i))
    {value : ι → Value → Except Fault JsonValue}
    (hvalue : ∀ v, T.Values v → Settled Same fun i => value i (v i)) :
    Settled Same fun i => Heap.jsonObject (key i) (value i) (entries i) := by
  refine (he.settled_mapM fun e he => ?_).bind fun members hmembers => ?_
  · refine (hkey _ he.1).bind fun name hname => (hvalue _ he.2).bind fun j hj => ?_
    exact .ok (hname.map₂ hj Prod.mk)
  · exact .ok (hmembers.map fun members =>
      JsonValue.object (members.foldl (fun seen e => JsonValue.insertEntry e.1 e.2 seen) []))

variable [Inhabited ι]

theorem settled_bodyToJson (hT : T.Heaps h) (hv : T.Values v)
    {inside : ι → Value → Except Fault JsonValue}
    (hinside : ∀ v, T.Values v → Settled Same fun i => inside i (v i)) {b : ι → Body}
    (hb : T.Bodies k b) : Settled Same fun i => (h i).bodyToJson (v i) (inside i) (b i) := by
  have htext := (hT.display hv).map JsonValue.text
  cases hb with
  | text s => exact .ok (.const _)
  | array hi =>
    exact (Each.settled_mapM hi hinside).bind fun items hitems => .ok (hitems.map JsonValue.array)
  | @dictionary entries he =>
    change Settled Same fun i => Heap.jsonObject (fun key => .ok ((h i).jsonKey key)) (inside i)
      (entries i).entries
    refine settled_jsonObject he (fun key hkey => ?_) hinside
    exact .ok ((hT.textOf? hkey).map₂ (hT.display hkey) fun s t => s.getD t)
  | instanceOf _ hf => exact settled_jsonObject hf (fun key hkey => hT.text hkey) hinside
  | _ => exact .ok htext

theorem settled_toJson (hT : T.Heaps h) (room : Nat) (hv : T.Values v) :
    Settled Same fun i => (h i).toJson room (v i) := by
  induction room generalizing v with
  | zero => exact .error nofun
  | succ room ih =>
    obtain ⟨b, hb⟩ := hv.toBool?
    obtain ⟨x, hx⟩ := hv.toFloat?
    simp only [Heap.toJson, hb, hx]
    cases b with
    | some b => exact .ok (.const _)
    | none =>
      cases x with
      | some x => exact .ok (.const _)
      | none =>
        rcases hv.handle with hs | ⟨k, r, hr, hv'⟩
        · simp only [hs]
          exact .ok (.const _)
        · simp only [hv']
          refine (hT.get hr).bind fun o ho => ?_
          cases ho with
          | mk _ hbody => exact settled_bodyToJson hT hv (fun _ => ih) hbody

namespace NativeCall

variable {c : ι → NativeCall}

omit [Inhabited ι] in
theorem agree_jsonParse (lib : JsonLibrary) (hT : T.Heaps h) (hc : T.Calls c) :
    Agree h (fun i => (c i).jsonParse lib) T.Yields := by
  refine (agree_text hT hc 0).nextBy (fun _ _ => by split <;> infer_instance)
    fun s h₁ hT₁ hs => ?_
  obtain ⟨s, hs⟩ := hs
  simp only [hs]
  cases lib.parse s with
  | error e => exact agree_throw hT₁ (by simp)
  | ok j =>
    intro hfit
    obtain ⟨T', hle, hT', hv⟩ := tied_ofJson hT₁ j hfit
    exact Or.inl ⟨T', _, _, hT', ⟨hle, hv⟩, fun _ => rfl⟩

theorem agree_jsonStringify (lib : JsonLibrary) (hT : T.Heaps h) (hc : T.Calls c) :
    Agree h (fun i => (c i).jsonStringify lib) T.Yields := by
  refine (agree_settled hT (settled_value hc 0)).next fun v h₁ hT₁ hv => ?_
  refine agree_get ((agree_settled hT₁ (settled_toJson hT₁ _ hv)).next fun j h₂ hT₂ hj => ?_)
  obtain ⟨j, hj⟩ := hj
  have hlayout : Same fun i => (c i).jsonLayout := by
    obtain ⟨name, args, hargs, hc⟩ := hc
    simp only [jsonLayout, hc]
    rcases (hargs.getElem? 1).cases with hnone | ⟨flag, hflag, hsome⟩
    · simp only [hnone]
      exact .const _
    · simp only [hsome]
      exact hflag.isFalsey.map fun b => if b then _ else _
  obtain ⟨layout, hlayout⟩ := hlayout
  simp only [hj, hlayout]
  refine (agree_intern hT₂ _).grow fun T' r h₃ _ hT₃ hr => agree_yield hT₃ (.object hr)

end NativeCall

end FiberMachine
