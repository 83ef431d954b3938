import FiberMachine.Proofs.Json.Libraries
import FiberMachine.Proofs.Json.Reading

/-!
# JSON texts that are read back

Both layouts of a value are read back as the value when it has no more levels than a reader
goes through. When it has more, neither is.
-/

namespace FiberMachine

namespace JsonValue

open JsonText

theorem blank_gap (layout : JsonText.Layout) (level : Nat) : Blank (layout.gap level) := by
  cases layout with
  | compact => exact nofun
  | indented =>
    intro c hc
    obtain rfl | hc := List.mem_cons.mp hc
    · rfl
    · rw [List.eq_of_mem_replicate hc]
      rfl

theorem blank_afterColon (layout : JsonText.Layout) : Blank layout.afterColon := by
  cases layout <;> simp [JsonText.Layout.afterColon, Blank, Cursor.isBlank]

/-- What stands before the end of a list or an object with some parts. -/
def lastGap (layout : JsonText.Layout) (level : Nat) {α : Type} : List α → List Char
  | [] => []
  | _ => layout.gap level

theorem blank_lastGap (layout : JsonText.Layout) (level : Nat) {α : Type} (l : List α) :
    Blank (lastGap layout level l) := by
  cases l with
  | nil => exact nofun
  | cons a l => exact blank_gap layout level

theorem lastGap_map (layout : JsonText.Layout) (level : Nat) {α β : Type} (f : α → β) (l : List α) :
    lastGap layout level (l.map f) = lastGap layout level l := by
  cases l <;> rfl

end JsonValue

/-! ## Texts of trees -/

namespace JsonTree

open JsonText JsonValue

theorem writeItems_eq (layout : JsonText.Layout) (level : Nat) (items : List JsonTree) :
    writeItems layout level items = listed (write layout level) (layout.gap level) false items := by
  induction items with
  | nil => rfl
  | cons item items ih => simp [writeItems, listed, separator, ih]

theorem writeEntry_eq (layout : JsonText.Layout) (level : Nat) (e : String × JsonTree) :
    writeEntry layout level e = entryText layout.afterColon (write layout level) e := by
  obtain ⟨key, tree⟩ := e
  simp [writeEntry, entryText]

theorem writeEntries_eq (layout : JsonText.Layout) (level : Nat) (entries : List (String × JsonTree)) :
    writeEntries layout level entries =
      listed (entryText layout.afterColon (write layout level)) (layout.gap level) false
        entries := by
  induction entries with
  | nil => rfl
  | cons entry entries ih => simp [writeEntries, listed, separator, ih, writeEntry_eq]

theorem write_array (layout : JsonText.Layout) (level : Nat) (items : List JsonTree) :
    write layout level (.array items) =
      '[' :: (listed (write layout (level + 1)) (layout.gap (level + 1)) true items ++
        (lastGap layout level items ++ [']'])) := by
  cases items with
  | nil => rfl
  | cons item items => simp [write, listed, separator, writeItems_eq, lastGap]

theorem write_object (layout : JsonText.Layout) (level : Nat) (entries : List (String × JsonTree)) :
    write layout level (.object entries) =
      '\x7b' :: (listed (entryText layout.afterColon (write layout (level + 1)))
        (layout.gap (level + 1)) true entries ++ (lastGap layout level entries ++ ['\x7d'])) := by
  cases entries with
  | nil => rfl
  | cons entry entries =>
    simp [write, listed, separator, writeEntries_eq, writeEntry_eq, lastGap]

end JsonTree

/-! ## Texts of values -/

namespace JsonValue

open JsonText

/-- The text of a value at a level. -/
def write (layout : JsonText.Layout) (level : Nat) (j : JsonValue) : List Char := j.tree.write layout level

theorem write_array (layout : JsonText.Layout) (level : Nat) (items : List JsonValue) :
    write layout level (.array items) =
      '[' :: (listed (write layout (level + 1)) (layout.gap (level + 1)) true items ++
        (lastGap layout level items ++ [']'])) := by
  have h := JsonTree.write_array layout level (treeItems items)
  rw [treeItems_eq, listed_map, lastGap_map] at h
  rw [write, tree, treeItems_eq]
  exact h

theorem write_object (layout : JsonText.Layout) (level : Nat) (entries : List (String × JsonValue)) :
    write layout level (.object entries) =
      '\x7b' :: (listed (entryText layout.afterColon (write layout (level + 1)))
        (layout.gap (level + 1)) true entries ++ (lastGap layout level entries ++ ['\x7d'])) := by
  have h := JsonTree.write_object layout level (treeEntries entries)
  rw [treeEntries_eq, listed_map, lastGap_map] at h
  rw [write, tree, treeEntries_eq]
  exact h

theorem opens_write (layout : JsonText.Layout) (level : Nat) {j : JsonValue} (hj : j.Legible ReadsBack) :
    Opens ']' (write layout level j) := by
  cases j with
  | null => exact ⟨'n', _, rfl, rfl, by decide⟩
  | bool b => cases b <;> exact ⟨_, _, rfl, rfl, by decide⟩
  | number x =>
    obtain ⟨c, cs, read, htext, hc, -, hblank⟩ := ReadsBack.numeral hj.2
    refine ⟨c, cs, htext, hblank c List.mem_cons_self, ?_⟩
    rintro rfl
    cases hc
  | text s => exact ⟨'"', _, rfl, rfl, by decide⟩
  | array items => exact ⟨'[', _, write_array .., rfl, by decide⟩
  | object entries => exact ⟨'\x7b', _, write_object .., rfl, by decide⟩

/-! ## Readers -/

variable {cs : List Char}

/-- What a reader does where a list begins. -/
theorem reader_bracket (depth : Nat) (cs : List Char) (line : Nat) :
    reader (depth + 1) ⟨'[' :: cs, line⟩ = (do
      let items ← elements (reader depth) (2 * cs.length + 2) true #[]
      endList
      pure (.array items.toList) : Reader JsonValue) ⟨cs, Cursor.lineAfter '[' line⟩ :=
  bind_of_ok (peekToken_cons rfl cs line)

theorem reader_brace (depth : Nat) (cs : List Char) (line : Nat) :
    reader (depth + 1) ⟨'\x7b' :: cs, line⟩ = (do
      let es ← entries (reader depth) (2 * cs.length + 2) true []
      endObject
      pure (.object es) : Reader JsonValue) ⟨cs, Cursor.lineAfter '\x7b' line⟩ :=
  bind_of_ok (peekToken_cons rfl cs line)

theorem endList_apply (cs : List Char) (line : Nat) :
    endList ⟨']' :: cs, line⟩ = .ok ((), ⟨cs, Cursor.lineAfter ']' line⟩) :=
  bind_of_ok (peekToken_cons rfl cs line)

/-- It is enough to read a value where it begins. -/
theorem reader_blank {pre : List Char} {c : Char} (hp : Blank pre) (hc : Cursor.isBlank c = false)
    (depth : Nat) (cs : List Char) (line : Nat) :
    ∃ line₁, reader depth ⟨pre ++ c :: cs, line⟩ = reader depth ⟨c :: cs, line₁⟩ := by
  cases depth <;> exact valueWith_blank _ _ hp hc cs line

theorem takes_of_cons {c : Char} {a : JsonValue} {depth : Nat} (hc : Cursor.isBlank c = false)
    (h : ∀ rest line, Ends rest →
      ∃ line', reader depth ⟨c :: (cs ++ rest), line⟩ = .ok (a, ⟨rest, line'⟩)) :
    Takes (reader depth) (c :: cs) a := by
  intro pre rest line hp hends
  obtain ⟨line₁, h₁⟩ := reader_blank hp hc depth (cs ++ rest) line
  obtain ⟨line₂, h₂⟩ := h rest line₁ hends
  exact ⟨line₂, h₁.trans h₂⟩

variable {depth : Nat} {written : JsonValue → List Char} {gap gap' after : List Char}

/-- A reader that may look at each character twice comes to the end of what is listed. -/
theorem length_lt_fuel {α : Type} (written : α → List Char) (gap : List Char) (l : List α)
    (rest : List Char) : l.length < 2 * (listed written gap true l ++ rest).length + 2 := by
  have hle := length_le_listed written gap true l
  rw [List.length_append]
  omega

theorem takes_list {items : List JsonValue} (hg : Blank gap) (hg' : Blank gap')
    (hitems : ∀ j ∈ items, Takes (reader depth) (written j) j ∧ Opens ']' (written j)) :
    Takes (reader (depth + 1)) ('[' :: (listed written gap true items ++ (gap' ++ [']'])))
      (.array items) := by
  refine takes_of_cons rfl fun rest line _ => ?_
  simp only [List.append_assoc, List.cons_append, List.nil_append]
  have hfuel := length_lt_fuel written gap items (gap' ++ ']' :: rest)
  obtain ⟨line', h⟩ := elements_listed hg hg' hitems hfuel true #[] rest (Cursor.lineAfter '[' line)
  refine ⟨Cursor.lineAfter ']' line', (reader_bracket depth _ line).trans ((bind_of_ok h).trans ?_)⟩
  rw [bind_of_ok (endList_apply rest line')]
  simp [pure_apply]

theorem takes_dictionary {items : List (String × JsonValue)} (hg : Blank gap) (hg' : Blank gap')
    (hafter : Blank after) (hitems : ∀ e ∈ items, Takes (reader depth) (written e.2) e.2)
    (hsorted : items.Pairwise (·.1 < ·.1)) :
    Takes (reader (depth + 1)) ('\x7b' :: (listed (entryText after written) gap true items ++
      (gap' ++ ['\x7d']))) (.object items) := by
  refine takes_of_cons rfl fun rest line _ => ?_
  simp only [List.append_assoc, List.cons_append, List.nil_append]
  have hfuel := length_lt_fuel (entryText after written) gap items (gap' ++ '\x7d' :: rest)
  obtain ⟨line', h⟩ := entries_listed hg hg' hafter hitems (List.nil_append items ▸ hsorted) hfuel
    true rest (Cursor.lineAfter '\x7b' line)
  have hend : endObject ⟨'\x7d' :: rest, line'⟩ = .ok ((), ⟨rest, _⟩) := closing_apply rfl rest line'
  exact ⟨_, (reader_brace depth _ line).trans ((bind_of_ok h).trans (bind_of_ok hend))⟩

/-! ## Texts within the limit -/

mutual

theorem takes_write (layout : JsonText.Layout) : ∀ (j : JsonValue) (depth level : Nat), j.Legible ReadsBack →
    j.levels ≤ depth → Takes (reader depth) (write layout level j) j
  | .null, depth, level, _, _ => takes_of_cons rfl fun _ line _ =>
    ⟨line, by cases depth <;> rfl⟩
  | .bool true, depth, level, _, _ => takes_of_cons rfl fun _ line _ =>
    ⟨line, by cases depth <;> rfl⟩
  | .bool false, depth, level, _, _ => takes_of_cons rfl fun _ line _ =>
    ⟨line, by cases depth <;> rfl⟩
  | .number x, depth, level, hj, _ => by cases depth <;> exact takes_number _ _ hj.2
  | .text s, depth, level, _, _ => takes_of_cons rfl fun rest line _ => ⟨line, by
      have h : ∀ depth, reader depth ⟨quote s ++ rest, line⟩ =
          (do return .text (← JsonText.text) : Reader JsonValue) ⟨quote s ++ rest, line⟩ := by
        rintro (_ | depth) <;> exact bind_of_ok (peekToken_cons rfl _ line)
      exact (h depth).trans (bind_of_ok (text_quote s rest line))⟩
  | .array items, 0, level, _, hd => absurd hd (Nat.not_succ_le_zero _)
  | .array items, depth + 1, level, hj, hd => by
    have hd := Nat.le_of_succ_le_succ hd
    rw [write_array]
    refine takes_list (blank_gap _ _) (blank_lastGap _ _ _) fun j hm => ?_
    exact ⟨takes_items layout items depth (level + 1) hj hd j hm,
      opens_write _ _ (legibleItems_iff.mp hj j hm)⟩
  | .object entries, 0, level, _, hd => absurd hd (Nat.not_succ_le_zero _)
  | .object entries, depth + 1, level, hj, hd => by
    have hd := Nat.le_of_succ_le_succ hd
    rw [write_object]
    exact takes_dictionary (blank_gap _ _) (blank_lastGap _ _ _) (blank_afterColon _)
      (takes_entries layout entries depth (level + 1) hj.2 hd) hj.1

theorem takes_items (layout : JsonText.Layout) : ∀ (items : List JsonValue) (depth level : Nat),
    LegibleItems ReadsBack items → JsonTree.levelsOfItems (treeItems items) ≤ depth →
    ∀ j ∈ items, Takes (reader depth) (write layout level j) j
  | [], _, _, _, _ => nofun
  | item :: rest, depth, level, hj, hd => List.forall_mem_cons.mpr
    ⟨takes_write layout item depth level hj.1 (Nat.max_le.mp hd).1,
      takes_items layout rest depth level hj.2 (Nat.max_le.mp hd).2⟩

theorem takes_entries (layout : JsonText.Layout) : ∀ (entries : List (String × JsonValue))
    (depth level : Nat), LegibleEntries ReadsBack entries →
    JsonTree.levelsOfEntries (treeEntries entries) ≤ depth →
    ∀ e ∈ entries, Takes (reader depth) (write layout level e.2) e.2
  | [], _, _, _, _ => nofun
  | entry :: rest, depth, level, hj, hd => List.forall_mem_cons.mpr
    ⟨takes_write layout entry.2 depth level hj.1 (Nat.max_le.mp hd).1,
      takes_entries layout rest depth level hj.2 (Nat.max_le.mp hd).2⟩

end

theorem render_eq (layout : JsonText.Layout) (j : JsonValue) :
    render layout j = String.ofList (write layout 0 j) := rfl

theorem parse_render {j : JsonValue} (hj : j.Legible ReadsBack) (hd : j.levels ≤ maxDepth)
    (layout : JsonText.Layout) :
    parse (render layout j) = .ok j := by
  obtain ⟨line, h⟩ := takes_write layout j maxDepth 0 hj hd [] [] 1 nofun nofun
  simp only [List.nil_append, List.append_nil] at h
  simp only [parse, render_eq, run, Cursor.start, String.toList_ofList, StateT.run, bind_of_ok h]
  rfl

/-! ## Texts beyond the limit -/

theorem refuses_of_cons {c : Char} (hc : Cursor.isBlank c = false)
    (h : ∀ rest line, Ends rest → ∃ e, reader depth ⟨c :: (cs ++ rest), line⟩ = .error e) :
    Refuses (reader depth) (c :: cs) := by
  intro pre rest line hp hends
  obtain ⟨line₁, h₁⟩ := reader_blank hp hc depth (cs ++ rest) line
  obtain ⟨e, he⟩ := h rest line₁ hends
  exact ⟨e, h₁.trans he⟩

theorem refuses_list {items : List JsonValue} (hg : Blank gap) (hg' : Blank gap')
    (hopens : ∀ j ∈ items, Opens ']' (written j))
    (hitems : ∀ j ∈ items, Takes (reader depth) (written j) j ∨ Refuses (reader depth) (written j))
    (hbad : ∃ j ∈ items, Refuses (reader depth) (written j)) :
    Refuses (reader (depth + 1)) ('[' :: (listed written gap true items ++ (gap' ++ [']']))) := by
  refine refuses_of_cons rfl fun rest line _ => ?_
  simp only [List.append_assoc, List.cons_append, List.nil_append]
  rw [reader_bracket]
  obtain ⟨e, he⟩ := elements_refused hg hg' hopens hitems hbad _ true #[] rest
    (Cursor.lineAfter '[' line)
  exact ⟨e, bind_of_error he⟩

theorem refuses_dictionary {items : List (String × JsonValue)} (hg : Blank gap) (hg' : Blank gap')
    (hafter : Blank after)
    (hitems : ∀ e ∈ items, Takes (reader depth) (written e.2) e.2 ∨
      Refuses (reader depth) (written e.2))
    (hbad : ∃ e ∈ items, Refuses (reader depth) (written e.2)) :
    Refuses (reader (depth + 1)) ('\x7b' :: (listed (entryText after written) gap true items ++
      (gap' ++ ['\x7d']))) := by
  refine refuses_of_cons rfl fun rest line _ => ?_
  simp only [List.append_assoc, List.cons_append, List.nil_append]
  rw [reader_brace]
  obtain ⟨e, he⟩ := entries_refused hg hg' hafter hitems hbad [] _ true rest
    (Cursor.lineAfter '\x7b' line)
  exact ⟨e, bind_of_error he⟩

theorem exists_lt_levels {items : List JsonValue} (hd : depth < JsonTree.levelsOfItems (treeItems items)) :
    ∃ j ∈ items, depth < j.levels := by
  simpa [levelsOfItems_le] using Nat.not_le.mpr hd

theorem exists_lt_levels_entries {items : List (String × JsonValue)}
    (hd : depth < JsonTree.levelsOfEntries (treeEntries items)) : ∃ e ∈ items, depth < e.2.levels := by
  simpa [levelsOfEntries_le] using Nat.not_le.mpr hd

mutual

theorem refuses_write (layout : JsonText.Layout) : ∀ (j : JsonValue) (depth level : Nat), j.Legible ReadsBack →
    depth < j.levels → Refuses (reader depth) (write layout level j)
  | .null, _, _, _, hd => absurd hd (Nat.not_lt_zero _)
  | .bool _, _, _, _, hd => absurd hd (Nat.not_lt_zero _)
  | .number _, _, _, _, hd => absurd hd (Nat.not_lt_zero _)
  | .text _, _, _, _, hd => absurd hd (Nat.not_lt_zero _)
  | .array items, 0, level, _, _ => by
    rw [write_array]
    exact refuses_of_cons rfl fun rest line _ => ⟨_, bind_of_ok (peekToken_cons rfl _ line)⟩
  | .array items, depth + 1, level, hj, hd => by
    have hd := Nat.lt_of_succ_lt_succ hd
    rw [write_array]
    obtain ⟨bad, hbad, hdeep⟩ := exists_lt_levels hd
    have hrefuses := refuses_items layout items depth (level + 1) hj
    refine refuses_list (blank_gap _ _) (blank_lastGap _ _ _)
      (fun j hm => opens_write _ _ (legibleItems_iff.mp hj j hm)) (fun j hm => ?_)
      ⟨bad, hbad, hrefuses bad hbad hdeep⟩
    obtain hlt | hle := Nat.lt_or_ge depth j.levels
    · exact .inr (hrefuses j hm hlt)
    · exact .inl (takes_write layout j depth _ (legibleItems_iff.mp hj j hm) hle)
  | .object entries, 0, level, _, _ => by
    rw [write_object]
    exact refuses_of_cons rfl fun rest line _ => ⟨_, bind_of_ok (peekToken_cons rfl _ line)⟩
  | .object entries, depth + 1, level, hj, hd => by
    have hd := Nat.lt_of_succ_lt_succ hd
    rw [write_object]
    obtain ⟨bad, hbad, hdeep⟩ := exists_lt_levels_entries hd
    have hrefuses := refuses_entries layout entries depth (level + 1) hj.2
    refine refuses_dictionary (blank_gap _ _) (blank_lastGap _ _ _) (blank_afterColon _)
      (fun e hm => ?_) ⟨bad, hbad, hrefuses bad hbad hdeep⟩
    obtain hlt | hle := Nat.lt_or_ge depth e.2.levels
    · exact .inr (hrefuses e hm hlt)
    · exact .inl (takes_write layout e.2 depth _ (legibleEntries_iff.mp hj.2 e hm) hle)

theorem refuses_items (layout : JsonText.Layout) : ∀ (items : List JsonValue) (depth level : Nat),
    LegibleItems ReadsBack items → ∀ j ∈ items, depth < j.levels →
      Refuses (reader depth) (write layout level j)
  | [], _, _, _ => nofun
  | item :: rest, depth, level, hj => List.forall_mem_cons.mpr
    ⟨refuses_write layout item depth level hj.1, refuses_items layout rest depth level hj.2⟩

theorem refuses_entries (layout : JsonText.Layout) : ∀ (entries : List (String × JsonValue))
    (depth level : Nat), LegibleEntries ReadsBack entries → ∀ e ∈ entries, depth < e.2.levels →
      Refuses (reader depth) (write layout level e.2)
  | [], _, _, _ => nofun
  | entry :: rest, depth, level, hj => List.forall_mem_cons.mpr
    ⟨refuses_write layout entry.2 depth level hj.1, refuses_entries layout rest depth level hj.2⟩

end

theorem parse_render_error {j : JsonValue} (hj : j.Legible ReadsBack) (hd : maxDepth < j.levels)
    (layout : JsonText.Layout) : ∃ e, parse (render layout j) = .error e := by
  obtain ⟨e, he⟩ := refuses_write layout j maxDepth 0 hj hd [] [] 1 nofun nofun
  simp only [List.nil_append, List.append_nil] at he
  refine ⟨e, ?_⟩
  simp only [parse, render_eq, run, Cursor.start, String.toList_ofList, StateT.run, bind_of_error he]

end JsonValue

/-! ## The standard library -/

namespace JsonLibrary

open JsonText

theorem readsBack_standard : standard.ReadsBack = JsonValue.ReadsBack := by
  funext x
  have hrender : ∀ layout, JsonValue.render layout (.number x) = String.ofList (numberText x) :=
    fun layout => by rw [JsonValue.render_eq, JsonValue.write, JsonValue.tree, JsonTree.write]
  simp only [ReadsBack, standard, hrender, JsonValue.ReadsBack, eq_iff_iff]
  exact ⟨fun h => h .compact, fun h _ => h⟩

theorem printsAndReads_standard : standard.PrintsAndReads where
  reads layout hj hd := JsonValue.parse_render (readsBack_standard ▸ hj) hd layout
  refuses layout hj hd := JsonValue.parse_render_error (readsBack_standard ▸ hj) hd layout

/-- A number with a digit behind the point. -/
theorem readsBack_oneAndAHalf : standard.ReadsBack 1.5 := by
  have hnumber : String.ofList (numberText 1.5) = "1.5" := by decide +kernel
  rw [readsBack_standard, JsonValue.ReadsBack, hnumber]
  rfl

end JsonLibrary

end FiberMachine
