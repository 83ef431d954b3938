import FiberMachine.Heap.Display
import FiberMachine.Proofs.Heap.WellFormed
import Mathlib.Data.Nat.Find
import Mathlib.Logic.Relation

/-!
# How deep a display descends

A display is written by calls inside calls: one for each item, a level deeper, and one for each
key of a dictionary, which begins at the top again. The levels are limited, so the calls for items
never nest deep. The calls for keys do: with keys inside keys the nesting grows with the number
of dictionaries, and a dictionary that is shown inside one of its own keys is never written to an
end. Where the calls come to an end, they write the text of `display`.
-/

namespace FiberMachine

namespace Body

/-- The values that are shown a level deeper. -/
def inner : Body → List Value
  | .array items => items.toList
  | .dictionary entries => entries.toList.map Prod.snd
  | .boundMethod _ method => [.ofHandle method]
  | _ => []

/-- The values that are shown by themselves. -/
def keys : Body → List Value
  | .dictionary entries => entries.toList.map Prod.fst
  | _ => []

end Body

namespace Heap

/-- The text of an object, where the calls for its keys and items come to an end. -/
def writeBody (h : Heap) (key item : Value → Option String) : Body → Option String
  | .array items => do
    let texts ← items.toList.mapM item
    return "[" ++ commaSeparated texts ++ "]"
  | .dictionary entries => do
    let rows ← entries.toList.mapM fun e => (key e.1).map (·, e.2)
    let texts ← (sortEntries rows).mapM fun e => (item e.2).map (e.1 ++ ": " ++ ·)
    return "\x7b" ++ commaSeparated texts ++ "\x7d"
  | .boundMethod _ method => item (.ofHandle method)
  | body => some (h.displayBody (fun _ => "") (fun _ => "") body)

/-- The text that is written for a value at a depth, unless more calls nest than are allowed. -/
def writeWithin (h : Heap) : Nat → Nat → Value → Option String
  | 0, _, _ => none
  | calls + 1, depth, v =>
    match v.toFloat?, v.toBool?, v.toHandle? with
    | some x, _, _ => some (Double.printed x)
    | _, some b, _ => some (toString b)
    | _, _, none => some "nil"
    | _, _, some r =>
      match h.get? r with
      | none => some "<dangling>"
      | some o =>
        if displayDepth ≤ depth then some "..."
        else h.writeBody (writeWithin h calls 0) (writeWithin h calls (depth + 1)) o.body

/-- The call for a value at a depth makes a call for another value. -/
def Nests (h : Heap) (c c' : Nat × Value) : Prop :=
  ∃ r o, c.1 < displayDepth ∧ c.2 = .ofHandle r ∧ h.get? r = some o ∧
    (c'.1 = c.1 + 1 ∧ c'.2 ∈ o.body.inner ∨ c'.1 = 0 ∧ c'.2 ∈ o.body.keys)

/-- Inside a call an object is shown, and not only that it is too deep. -/
def Contains (h : Heap) (c : Nat × Value) (r : Handle) : Prop :=
  ∃ depth < displayDepth, Relation.ReflTransGen h.Nests c (depth, .ofHandle r)

/-- A dictionary is shown inside one of its own keys. -/
def InOwnKey (h : Heap) (r : Handle) : Prop :=
  ∃ o k, h.get? r = some o ∧ k ∈ o.body.keys ∧ h.Contains (0, k) r

variable {h : Heap} {calls calls' depth : Nat} {c c' : Nat × Value} {v : Value} {r : Handle} {o : Object}
  {b : Body} {t : String} {key key' item item' : Value → Option String}

/-! ## One call -/

theorem mapM_eq_map {α β : Type} {f : α → Option β} {g : α → β} {l : List α}
    (h : ∀ a ∈ l, f a = some (g a)) : l.mapM f = some (l.map g) := by
  induction l with
  | nil => rfl
  | cons a l ih =>
    obtain ⟨ha, hl⟩ := List.forall_mem_cons.mp h
    simp only [List.mapM_cons, ha, ih hl]
    rfl

theorem isSome_of_mapM {α β : Type} {f : α → Option β} {l : List α} (h : (l.mapM f).isSome) :
    ∀ a ∈ l, (f a).isSome := by
  induction l with
  | nil => nofun
  | cons a l ih =>
    rw [List.mapM_cons] at h
    cases ha : f a with
    | none => simp [ha] at h
    | some b =>
      cases hl : l.mapM f with
      | none => simp [ha, hl] at h
      | some bs => exact List.forall_mem_cons.mpr ⟨by simp [ha], ih (by simp [hl])⟩

theorem some_getD {α : Type} {x : Option α} {a : α} (h : x.isSome) : x = some (x.getD a) := by
  rw [Option.getD_of_ne_none (Option.isSome_iff_ne_none.mp h)]

/-- The texts of the keys stand in an order of their own. -/
theorem mem_sortEntries {α : Type} {rows : List (String × α)} {e : String × α} :
    e ∈ sortEntries rows ↔ e ∈ rows := (List.mergeSort_perm _ _).mem_iff

theorem mapM_rows {key' : Value → String} {entries : Table Value Value}
    (hkey : ∀ k ∈ (Body.dictionary entries).keys, key k = some (key' k)) :
    entries.toList.mapM (fun e => (key e.1).map (·, e.2)) =
      some (entries.toList.map fun e => (key' e.1, e.2)) := by
  apply mapM_eq_map
  intro e he
  rw [hkey e.1 (List.mem_map_of_mem he), Option.map_some]

theorem writeBody_eq {key' item' : Value → String}
    (hkey : ∀ k ∈ b.keys, key k = some (key' k)) (hitem : ∀ w ∈ b.inner, item w = some (item' w)) :
    h.writeBody key item b = some (h.displayBody key' item' b) := by
  cases b with
  | array items =>
    have hitems : items.toList.mapM item = some (items.toList.map item') := mapM_eq_map hitem
    simp only [writeBody, hitems]
    rfl
  | dictionary entries =>
    have htexts : (sortEntries (entries.toList.map fun e => (key' e.1, e.2))).mapM
        (fun e => (item e.2).map (e.1 ++ ": " ++ ·)) =
        some ((sortEntries (entries.toList.map fun e => (key' e.1, e.2))).map
          fun e => e.1 ++ ": " ++ item' e.2) := by
      apply mapM_eq_map
      intro e he
      obtain ⟨e', he', rfl⟩ := List.mem_map.mp (mem_sortEntries.mp he)
      rw [hitem _ (List.mem_map_of_mem he'), Option.map_some]
    simp only [writeBody, mapM_rows hkey, Option.bind_eq_bind, Option.bind_some, htexts]
    rfl
  | boundMethod receiver method => exact hitem _ (List.mem_singleton_self _)
  | _ => rfl

/-- An object is written exactly when all its keys and items are. -/
theorem isSome_writeBody : (h.writeBody key item b).isSome ↔
    (∀ k ∈ b.keys, (key k).isSome) ∧ ∀ w ∈ b.inner, (item w).isSome := by
  constructor
  · intro hsome
    obtain ⟨t, ht⟩ := Option.isSome_iff_exists.mp hsome
    cases b with
    | array items =>
      obtain ⟨texts, htexts, -⟩ := Option.bind_eq_some_iff.mp ht
      exact ⟨nofun, isSome_of_mapM (Option.isSome_of_eq_some htexts)⟩
    | dictionary entries =>
      obtain ⟨rows, hrows, ht⟩ := Option.bind_eq_some_iff.mp ht
      obtain ⟨texts, htexts, -⟩ := Option.bind_eq_some_iff.mp ht
      have hkeys : ∀ k ∈ (Body.dictionary entries).keys, (key k).isSome := by
        intro k hk
        obtain ⟨e, he, rfl⟩ := List.mem_map.mp hk
        exact Option.isSome_map.symm.trans (isSome_of_mapM (Option.isSome_of_eq_some hrows) e he)
      refine ⟨hkeys, fun w hw => ?_⟩
      obtain ⟨e, he, rfl⟩ := List.mem_map.mp hw
      rw [mapM_rows fun k hk => some_getD (a := "") (hkeys k hk)] at hrows
      cases hrows
      have hrow := isSome_of_mapM (Option.isSome_of_eq_some htexts) _
        (mem_sortEntries.mpr (List.mem_map_of_mem he))
      exact Option.isSome_map.symm.trans hrow
    | boundMethod receiver method =>
      exact ⟨nofun, List.forall_mem_singleton.mpr hsome⟩
    | _ => exact ⟨nofun, nofun⟩
  · rintro ⟨hkey, hitem⟩
    rw [writeBody_eq (fun k hk => some_getD (a := "") (hkey k hk))
      fun w hw => some_getD (a := "") (hitem w hw)]
    rfl

theorem writeWithin_object (ho : h.get? r = some o) :
    h.writeWithin (calls + 1) depth (.ofHandle r) = if displayDepth ≤ depth then some "..." else
      h.writeBody (h.writeWithin calls 0) (h.writeWithin calls (depth + 1)) o.body := by
  rw [writeWithin, Value.toFloat?_ofHandle, Value.toBool?_ofHandle, Value.toHandle?_ofHandle]
  simp only [ho]

theorem isSome_writeWithin_object (hlt : depth < displayDepth) (ho : h.get? r = some o) :
    (h.writeWithin (calls + 1) depth (.ofHandle r)).isSome ↔
      (∀ k ∈ o.body.keys, (h.writeWithin calls 0 k).isSome) ∧
      ∀ w ∈ o.body.inner, (h.writeWithin calls (depth + 1) w).isSome := by
  rw [writeWithin_object ho, if_neg (Nat.not_le.mpr hlt), isSome_writeBody]

theorem displayScalar_object {object : Handle → Object → String} (ho : h.get? r = some o) :
    h.displayScalar object (.ofHandle r) = object r o := by
  rw [displayScalar, Value.toFloat?_ofHandle, Value.toBool?_ofHandle, Value.toHandle?_ofHandle]
  simp only [ho]

/-- A value without an object has the same text whatever is allowed. -/
theorem writeWithin_scalar (hv : ∀ r o, v = .ofHandle r → h.get? r ≠ some o)
    (object : Handle → Object → String) :
    h.writeWithin (calls + 1) depth v = some (h.displayScalar object v) := by
  cases hx : v.toFloat? with
  | some x => simp only [writeWithin, displayScalar, hx]
  | none =>
    cases hb : v.toBool? with
    | some b => simp only [writeWithin, displayScalar, hx, hb]
    | none =>
      cases hr : v.toHandle? with
      | none => simp only [writeWithin, displayScalar, hx, hb, hr]
      | some r =>
        cases ho : h.get? r with
        | none => simp only [writeWithin, displayScalar, hx, hb, hr, ho]
        | some o => exact absurd ho (hv r o (Value.ofHandle_of_toHandle? hr).symm)

/-- A call comes to an end within a number of calls when the calls it makes need one less. -/
theorem isSome_writeWithin : (h.writeWithin (calls + 1) c.1 c.2).isSome ↔
    ∀ c', h.Nests c c' → (h.writeWithin calls c'.1 c'.2).isSome := by
  obtain ⟨depth, v⟩ := c
  by_cases hv : ∃ r o, v = .ofHandle r ∧ h.get? r = some o
  · obtain ⟨r, o, rfl, ho⟩ := hv
    by_cases hdepth : displayDepth ≤ depth
    · rw [writeWithin_object ho, if_pos hdepth]
      refine ⟨?_, fun _ => rfl⟩
      rintro - c' ⟨-, -, hlt, -⟩
      exact absurd hdepth (Nat.not_le.mpr hlt)
    · have hlt := Nat.not_le.mp hdepth
      rw [isSome_writeWithin_object hlt ho]
      constructor
      · rintro ⟨hkeys, hitems⟩ ⟨depth', w⟩ ⟨r', o', -, hr, ho', hw⟩
        obtain rfl := Value.ofHandle_injective hr
        obtain rfl := Option.some.inj (ho.symm.trans ho')
        rcases hw with ⟨rfl, hw⟩ | ⟨rfl, hw⟩
        · exact hitems w hw
        · exact hkeys w hw
      · intro h
        exact ⟨fun k hk => h (0, k) ⟨r, o, hlt, rfl, ho, .inr ⟨rfl, hk⟩⟩,
          fun w hw => h (depth + 1, w) ⟨r, o, hlt, rfl, ho, .inl ⟨rfl, hw⟩⟩⟩
  · rw [writeWithin_scalar (fun r o heq ho => hv ⟨r, o, heq, ho⟩) fun _ _ => ""]
    refine ⟨?_, fun _ => rfl⟩
    rintro - c' ⟨r, o, -, heq, ho, -⟩
    exact absurd ⟨r, o, heq, ho⟩ hv

/-! ## What is written -/

/-- With more calls allowed, nothing else is written. -/
theorem writeWithin_mono (hle : calls ≤ calls') (ht : h.writeWithin calls depth v = some t) :
    h.writeWithin calls' depth v = some t := by
  induction calls generalizing calls' depth v t with
  | zero => cases ht
  | succ calls ih =>
    obtain ⟨calls', rfl⟩ := Nat.exists_eq_add_of_le' (Nat.le_of_add_left_le hle)
    by_cases hv : ∃ r o, v = .ofHandle r ∧ h.get? r = some o
    · obtain ⟨r, o, rfl, ho⟩ := hv
      rw [writeWithin_object ho] at ht ⊢
      split at ht
      · rename_i hdepth
        rwa [if_pos hdepth]
      · rename_i hdepth
        obtain ⟨hkeys, hitems⟩ := isSome_writeBody.mp (Option.isSome_of_eq_some ht)
        have hkeys := fun k hk => some_getD (a := "") (hkeys k hk)
        have hitems := fun w hw => some_getD (a := "") (hitems w hw)
        rw [writeBody_eq hkeys hitems] at ht
        rw [if_neg hdepth, ← ht]
        exact writeBody_eq (fun k hk => ih (by omega) (hkeys k hk))
          fun w hw => ih (by omega) (hitems w hw)
    · have hv : ∀ r o, v = .ofHandle r → h.get? r ≠ some o := fun r o heq ho => hv ⟨r, o, heq, ho⟩
      rw [writeWithin_scalar hv fun _ _ => ""] at ht ⊢
      exact ht

theorem isSome_mono (hle : calls ≤ calls') (hsome : (h.writeWithin calls depth v).isSome) :
    (h.writeWithin calls' depth v).isSome :=
  Option.isSome_of_eq_some (writeWithin_mono hle (some_getD (a := "") hsome))

/-- All keys of a dictionary are written within a number of calls. -/
def KeysWithin (h : Heap) (calls : Nat) (r : Handle) : Prop :=
  ∀ o, h.get? r = some o → ∀ k ∈ o.body.keys, (h.writeWithin calls 0 k).isSome

theorem KeysWithin.mono (hle : calls ≤ calls') (hkeys : h.KeysWithin calls r) :
    h.KeysWithin calls' r := fun o ho k hk => isSome_mono hle (hkeys o ho k hk)

/-- With the fewest calls that the keys need, too few are left for them inside themselves. -/
theorem KeysWithin.exists_least (hkeys : h.KeysWithin calls r) : ∃ least ≤ calls,
    h.KeysWithin least r ∧ ∀ fewer < least, ¬ h.KeysWithin fewer r := by
  classical
  have hsome : ∃ n, h.KeysWithin n r := ⟨calls, hkeys⟩
  exact ⟨Nat.find hsome, Nat.find_min' hsome hkeys, Nat.find_spec hsome,
    fun _ => Nat.find_min hsome⟩

/-- The text of a key inside the keys of some dictionaries. -/
def keyText (h : Heap) (path : List Handle) (r : Handle) (k : Value) : String :=
  if h.isLive r ∧ r ∉ path then h.displayNested (r :: path) k else "..."

theorem displayNested_eq (path : List Handle) :
    h.displayNested path = h.displayBelow (h.keyText path) displayDepth := by
  rw [displayNested]
  rfl

theorem displayBelow_object {key : Handle → Value → String} (ho : h.get? r = some o) (room : Nat) :
    h.displayBelow key (room + 1) (.ofHandle r) =
      h.displayBody (key r) (h.displayBelow key room) o.body := displayScalar_object ho

theorem writeWithin_eq_displayBelow (hv : ∀ r o, v = .ofHandle r → h.get? r ≠ some o)
    (key : Handle → Value → String) (room : Nat) :
    h.writeWithin (calls + 1) depth v = some (h.displayBelow key room v) := by
  cases room with
  | zero => exact writeWithin_scalar hv _
  | succ room => exact writeWithin_scalar hv _

theorem succ_of_isSome (hsome : (h.writeWithin calls depth v).isSome) : ∃ n, calls = n + 1 := by
  cases calls with
  | zero => cases hsome
  | succ n => exact ⟨n, rfl⟩

/-- What is written is what is shown. The keys of a dictionary on the path need more calls than
are left, so no way back to it is ever cut off. -/
theorem displayBelow_of_write (path : List Handle)
    (hpath : ∀ r ∈ path, ¬ h.KeysWithin calls r) (hdepth : depth ≤ displayDepth)
    (ht : h.writeWithin (calls + 1) depth v = some t) :
    h.displayBelow (h.keyText path) (displayDepth - depth) v = t := by
  induction calls using Nat.strongRecOn generalizing path depth v t with
  | ind calls ih =>
    by_cases hv : ∃ r o, v = .ofHandle r ∧ h.get? r = some o
    · obtain ⟨r, o, rfl, ho⟩ := hv
      rw [writeWithin_object ho] at ht
      split at ht
      · rename_i hle
        cases ht
        rw [Nat.sub_eq_zero_of_le hle, displayBelow, displayScalar_object ho]
      · rename_i hlt
        obtain ⟨hkeys, hitems⟩ := isSome_writeBody.mp (Option.isSome_of_eq_some ht)
        have hwithin : h.KeysWithin calls r := by
          intro o' ho' k hk
          obtain rfl := Option.some.inj (ho.symm.trans ho')
          exact hkeys k hk
        have hfresh : r ∉ path := fun hmem => hpath r hmem hwithin
        have hkey : ∀ k ∈ o.body.keys, h.writeWithin calls 0 k = some (h.keyText path r k) := by
          intro k hk
          obtain ⟨least, hle, hleast, hfewer⟩ := hwithin.exists_least
          obtain ⟨n, rfl⟩ := succ_of_isSome (hleast o ho k hk)
          have hpath' : ∀ s ∈ r :: path, ¬ h.KeysWithin n s := List.forall_mem_cons.mpr
            ⟨hfewer n (Nat.lt_succ_self n), fun s hs hn => hpath s hs (hn.mono (by omega))⟩
          have htext := some_getD (a := "") (hleast o ho k hk)
          have hshown := ih n hle (r :: path) hpath' (Nat.zero_le _) htext
          rw [writeWithin_mono hle htext, ← hshown, keyText,
            if_pos ⟨isLive_iff.mpr ⟨o, ho⟩, hfresh⟩, displayNested_eq]
          rfl
        have hitem : ∀ w ∈ o.body.inner, h.writeWithin calls (depth + 1) w =
            some (h.displayBelow (h.keyText path) (displayDepth - (depth + 1)) w) := by
          intro w hw
          obtain ⟨n, rfl⟩ := succ_of_isSome (hitems w hw)
          have htext := some_getD (a := "") (hitems w hw)
          have hpath' : ∀ s ∈ path, ¬ h.KeysWithin n s :=
            fun s hs hn => hpath s hs (hn.mono (Nat.le_succ n))
          rw [ih n (Nat.lt_succ_self n) path hpath' (by omega) htext]
          exact htext
        have hroom : displayDepth - depth = displayDepth - (depth + 1) + 1 := by omega
        rw [hroom, displayBelow_object ho]
        exact Option.some.inj ((writeBody_eq hkey hitem).symm.trans ht)
    · rw [writeWithin_eq_displayBelow (fun r o heq ho => hv ⟨r, o, heq, ho⟩)] at ht
      exact Option.some.inj ht

/-- Where the calls come to an end, they write the text that is shown. -/
theorem display_of_write (ht : h.writeWithin calls 0 v = some t) : h.display v = t := by
  obtain ⟨n, rfl⟩ := succ_of_isSome (Option.isSome_of_eq_some ht)
  rw [display, displayNested_eq]
  exact displayBelow_of_write [] nofun (Nat.zero_le _) ht

theorem write_eq_display (hsome : (h.writeWithin calls 0 v).isSome) :
    h.writeWithin calls 0 v = some (h.display v) := by
  have ht := some_getD (a := "") hsome
  rw [display_of_write ht]
  exact ht

/-! ## How many calls nest -/

/-- The dictionaries of a heap. -/
def dictionaries (h : Heap) : List Handle :=
  h.handles.filter fun r => h.kindOf? (.ofHandle r) == some .dictionary

open Classical in
/-- How many dictionaries are shown inside a call. -/
noncomputable def shownCount (h : Heap) (c : Nat × Value) : Nat :=
  (h.dictionaries.filter fun r => h.Contains c r).length

theorem Contains.of_nests (hnests : h.Nests c c') (hcontains : h.Contains c' r) : h.Contains c r := by
  obtain ⟨depth, hlt, hreach⟩ := hcontains
  exact ⟨depth, hlt, .head hnests hreach⟩

theorem shownCount_le_of_nests (hnests : h.Nests c c') : h.shownCount c' ≤ h.shownCount c := by
  apply List.Sublist.length_le
  apply List.monotone_filter_right
  intro r hr
  simp only [decide_eq_true_eq] at hr ⊢
  exact hr.of_nests hnests

theorem mem_dictionaries (ho : h.get? r = some o) {k : Value} (hk : k ∈ o.body.keys) :
    r ∈ h.dictionaries := by
  apply List.mem_filter.mpr ⟨mem_handles_of_isLive (isLive_iff.mpr ⟨o, ho⟩), _⟩
  have hkind : o.kind = .dictionary := by
    rw [Object.kind]
    cases hbody : o.body <;> first | rfl | (rw [hbody] at hk; cases hk)
  simp [kindOf?, Value.toHandle?_ofHandle, ho, hkind]

/-- Inside a key fewer dictionaries are shown, unless the one it belongs to is among them. -/
theorem shownCount_lt_of_key (hlt : depth < displayDepth) (ho : h.get? r = some o) {k : Value}
    (hk : k ∈ o.body.keys) (hown : ¬ h.InOwnKey r) :
    h.shownCount (0, k) < h.shownCount (depth, .ofHandle r) := by
  classical
  have hnests : h.Nests (depth, .ofHandle r) (0, k) := ⟨r, o, hlt, rfl, ho, .inr ⟨rfl, hk⟩⟩
  apply length_filter_lt _ (mem_dictionaries ho hk)
  · exact decide_eq_true (⟨depth, hlt, .refl⟩ : h.Contains (depth, .ofHandle r) r)
  · simp only [decide_eq_true_eq]
    exact fun hcontains => hown ⟨o, k, ho, hk, hcontains⟩
  · intro s hs
    simp only [decide_eq_true_eq] at hs ⊢
    exact hs.of_nests hnests

/-- Each dictionary that is shown allows for one more descent to the limit. -/
theorem isSome_of_not_inOwnKey (hdepth : depth ≤ displayDepth)
    (hown : ∀ r, h.Contains (depth, v) r → ¬ h.InOwnKey r)
    (hcalls : (displayDepth + 1) * h.shownCount (depth, v) + (displayDepth + 1 - depth) ≤ calls) :
    (h.writeWithin calls depth v).isSome := by
  induction calls generalizing depth v with
  | zero => omega
  | succ calls ih =>
    apply (isSome_writeWithin (c := (depth, v))).mpr
    rintro ⟨depth', w⟩ hnests
    have hown' := fun s hs => hown s (.of_nests hnests hs)
    have hcount := shownCount_le_of_nests hnests
    obtain ⟨r, o, hlt, rfl, ho, ⟨rfl, hw⟩ | ⟨rfl, hw⟩⟩ := hnests
    · have hless : (displayDepth + 1) * h.shownCount (depth + 1, w) ≤
          (displayDepth + 1) * h.shownCount (depth, .ofHandle r) := Nat.mul_le_mul_left _ hcount
      apply ih (show depth + 1 ≤ displayDepth from hlt) hown'
      omega
    · have hfewer : h.shownCount (0, w) + 1 ≤ h.shownCount (depth, .ofHandle r) :=
        shownCount_lt_of_key hlt ho hw (hown r ⟨depth, hlt, .refl⟩)
      have hless := Nat.mul_le_mul_left (displayDepth + 1) hfewer
      apply ih (Nat.zero_le _) hown'
      rw [Nat.mul_succ] at hless
      omega

theorem isSome_of_reach (hreach : Relation.ReflTransGen h.Nests c c')
    (hsome : (h.writeWithin calls c.1 c.2).isSome) : (h.writeWithin calls c'.1 c'.2).isSome := by
  induction hreach with
  | refl => exact hsome
  | tail _ hnests ih =>
    obtain ⟨n, rfl⟩ := succ_of_isSome ih
    exact isSome_mono (Nat.le_succ n) (isSome_writeWithin.mp ih _ hnests)

/-- A dictionary that is shown inside its own key is never written to an end. -/
theorem not_isSome_of_inOwnKey (hown : h.InOwnKey r) (hcontains : h.Contains c r) :
    ¬ (h.writeWithin calls c.1 c.2).isSome := by
  obtain ⟨o, k, ho, hk, hcontains'⟩ := hown
  -- With the fewest calls for the key, the same key inside it would get along with fewer.
  induction calls generalizing c with
  | zero => nofun
  | succ calls ih =>
    intro hsome
    obtain ⟨depth, hlt, hreach⟩ := hcontains
    have hdict := isSome_of_reach hreach hsome
    have hkey := isSome_writeWithin.mp hdict (0, k) ⟨r, o, hlt, rfl, ho, .inr ⟨rfl, hk⟩⟩
    exact ih hcontains' hkey

/-- Keys that hold nothing leave a single descent. -/
theorem isSome_of_plain (hdepth : depth ≤ displayDepth)
    (hplain : ∀ r o k, h.Contains (depth, v) r → h.get? r = some o → k ∈ o.body.keys →
      ∀ c, ¬ h.Nests (0, k) c)
    (hcalls : displayDepth + 1 - depth ≤ calls) : (h.writeWithin calls depth v).isSome := by
  induction calls generalizing depth v with
  | zero => omega
  | succ calls ih =>
    apply (isSome_writeWithin (c := (depth, v))).mpr
    rintro ⟨depth', w⟩ hnests
    have hplain' := fun s o k hs => hplain s o k (.of_nests hnests hs)
    obtain ⟨r, o, hlt, rfl, ho, ⟨rfl, hw⟩ | ⟨rfl, hw⟩⟩ := hnests
    · apply ih (show depth + 1 ≤ displayDepth from hlt) hplain'
      omega
    · obtain ⟨n, rfl⟩ : ∃ n, calls = n + 1 := Nat.exists_eq_add_one.mpr (by omega)
      apply (isSome_writeWithin (c := (0, w))).mpr
      exact fun c hnests => absurd hnests (hplain r o w ⟨depth, hlt, .refl⟩ ho hw c)

/-! ## Keys inside keys -/

/-- A dictionary whose only key is a dictionary whose only key is a dictionary, and so on. -/
def keyTower : Nat → Heap × Handle
  | 0 => empty.alloc (.dictionary .empty)
  | n + 1 => (keyTower n).1.alloc (.dictionary (Table.empty.insert (.ofHandle (keyTower n).2) .nil))

/-- A dictionary in the first slot whose only key is itself. -/
def ownKey : Heap × Handle :=
  empty.alloc (.dictionary (Table.empty.insert (.ofHandle ⟨0, .zero⟩) .nil))

theorem keys_single (k v : Value) : (Body.dictionary (Table.empty.insert k v)).keys = [k] := rfl

theorem inner_single (k v : Value) : (Body.dictionary (Table.empty.insert k v)).inner = [v] := rfl

theorem size_keyTower (n : Nat) : (keyTower n).1.slots.size ≤ n + 1 := by
  induction n with
  | zero => exact size_alloc_le _ _
  | succ n ih => exact Nat.le_trans (size_alloc_le _ _) (Nat.succ_le_succ ih)

theorem empty_wellFormed : empty.WellFormed := withThreshold_wellFormed _ _

theorem keyTower_wellFormed {n : Nat} (hn : n < slotLimit) : (keyTower n).1.WellFormed := by
  induction n with
  | zero => exact empty_wellFormed.alloc nofun (Nat.le_trans (size_keyTower 0) hn)
  | succ n ih =>
    exact (ih (Nat.lt_of_succ_lt hn)).alloc nofun (Nat.le_trans (size_keyTower (n + 1)) hn)

theorem not_nests_scalar (hv : v.toHandle? = none) (c : Nat × Value) : ¬ h.Nests (depth, v) c := by
  rintro ⟨r, o, -, rfl, -⟩
  rw [Value.toHandle?_ofHandle] at hv
  cases hv

/-- A tower needs a call for each of its dictionaries, one inside the other. -/
theorem writeWithin_keyTower {n : Nat} (hn : n < slotLimit)
    (hheap : ∀ r o, (keyTower n).1.get? r = some o → h.get? r = some o) :
    ¬ (h.writeWithin n 0 (.ofHandle (keyTower n).2)).isSome ∧
    (h.writeWithin (n + 1) 0 (.ofHandle (keyTower n).2)).isSome := by
  induction n with
  | zero =>
    have halloc := alloc_allocated empty_wellFormed.toArena (.dictionary .empty)
      (Nat.le_trans (size_keyTower 0) hn)
    have hsome : h.get? (keyTower 0).2 = some (.ofBody (.dictionary .empty)) :=
      hheap _ _ halloc.get?_self
    exact ⟨nofun, (isSome_writeWithin_object (by decide) hsome).mpr ⟨nofun, nofun⟩⟩
  | succ n ih =>
    have hn' := Nat.lt_of_succ_lt hn
    have halloc := alloc_allocated (keyTower_wellFormed hn').toArena
      (.dictionary (Table.empty.insert (.ofHandle (keyTower n).2) .nil))
      (Nat.le_trans (size_keyTower (n + 1)) hn)
    obtain ⟨hnone, hbelow⟩ := ih hn' fun r o ho => hheap r o (halloc.get?_of_get? ho)
    have hsome : h.get? (keyTower (n + 1)).2 =
        some (.ofBody (.dictionary (Table.empty.insert (.ofHandle (keyTower n).2) .nil))) :=
      hheap _ _ halloc.get?_self
    have hpositive : 0 < displayDepth := by decide
    have hcalls := fun calls => @isSome_writeWithin_object h calls _ _ _ hpositive hsome
    simp only [Object.ofBody, keys_single, inner_single, List.forall_mem_singleton] at hcalls
    rw [hcalls, hcalls]
    refine ⟨fun h' => hnone h'.1, hbelow, ?_⟩
    apply (isSome_writeWithin (c := (_, _))).mpr
    exact fun c hnests => absurd hnests (not_nests_scalar Value.toHandle?_nil c)

theorem size_ownKey : ownKey.1.slots.size ≤ slotLimit := by decide

theorem ownKey_wellFormed : ownKey.1.WellFormed := empty_wellFormed.alloc nofun size_ownKey

theorem ownKey_inOwnKey : ownKey.1.InOwnKey ⟨0, .zero⟩ := by
  have hget := (alloc_allocated empty_wellFormed.toArena _ size_ownKey).get?_self
  refine ⟨_, .ofHandle ⟨0, .zero⟩, hget, ?_, 0, by decide, .refl⟩
  rw [Object.ofBody, keys_single]
  exact List.mem_singleton_self _

/-! ## Guarantees -/

/-- What holds of the calls that are made inside one another to show a value of a heap. -/
structure DescentGuarantees (h : Heap) (v : Value) : Prop where
  /-- Where the calls come to an end, they write the text that is shown. -/
  texts : ∀ calls t, h.writeWithin calls 0 v = some t → h.display v = t
  /-- With keys that hold nothing, one descent to the limit is enough. -/
  plain : (∀ r o k, h.Contains (0, v) r → h.get? r = some o → k ∈ o.body.keys →
      ∀ c, ¬ h.Nests (0, k) c) →
    h.writeWithin (displayDepth + 1) 0 v = some (h.display v)
  /-- With other keys each dictionary can make for one more descent. -/
  bounded : (∀ r, h.Contains (0, v) r → ¬ h.InOwnKey r) →
    h.writeWithin ((displayDepth + 1) * (h.dictionaries.length + 1)) 0 v = some (h.display v)
  /-- No number of calls is enough for a dictionary that is shown inside its own key. -/
  endless : ∀ r, h.Contains (0, v) r → h.InOwnKey r → ∀ calls, h.writeWithin calls 0 v = none

theorem shownCount_le (h : Heap) (c : Nat × Value) : h.shownCount c ≤ h.dictionaries.length :=
  List.length_filter_le _ _

theorem descentGuarantees (h : Heap) (v : Value) : DescentGuarantees h v where
  texts calls t := display_of_write
  plain hplain := write_eq_display (isSome_of_plain (Nat.zero_le _) hplain (Nat.le_refl _))
  bounded hown := by
    apply write_eq_display
    apply isSome_of_not_inOwnKey (Nat.zero_le _) hown
    have hcount := Nat.mul_le_mul_left (displayDepth + 1) (h.shownCount_le (0, v))
    rw [Nat.mul_succ]
    omega
  endless r hcontains hown calls :=
    Option.not_isSome_iff_eq_none.mp (not_isSome_of_inOwnKey hown hcontains)

/-- The number of calls that are enough depends on the heap, and there is a heap where no number
is enough. -/
theorem descent_unbounded :
    (∀ n < slotLimit, ∃ (h : Heap) (v : Value), h.WellFormed ∧ h.writeWithin n 0 v = none ∧
      h.writeWithin (n + 1) 0 v = some (h.display v)) ∧
    ∃ (h : Heap) (v : Value), h.WellFormed ∧ ∀ calls, h.writeWithin calls 0 v = none := by
  refine ⟨fun n hn => ?_, ownKey.1, .ofHandle ⟨0, .zero⟩, ownKey_wellFormed, fun calls => ?_⟩
  · obtain ⟨hnone, hsome⟩ := writeWithin_keyTower hn fun _ _ ho => ho
    exact ⟨_, _, keyTower_wellFormed hn, Option.not_isSome_iff_eq_none.mp hnone,
      write_eq_display hsome⟩
  · have hcontains : ownKey.1.Contains (0, .ofHandle ⟨0, .zero⟩) ⟨0, .zero⟩ := ⟨0, by decide, .refl⟩
    exact Option.not_isSome_iff_eq_none.mp (not_isSome_of_inOwnKey ownKey_inOwnKey hcontains)

end Heap
end FiberMachine
