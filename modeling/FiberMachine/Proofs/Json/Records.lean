import Mathlib.Data.List.TakeWhile
import FiberMachine.Json.Record
import FiberMachine.Proofs.Json.RoundTrip

/-!
# Records that are read back

A reader of a word, a list or a record takes what is written for it, in both layouts. The fields
of a record are taken one after the other; when one of them is refused, so is the record.
-/

namespace FiberMachine

namespace JsonText

open JsonValue (lastGap lastGap_map blank_gap blank_lastGap blank_afterColon endList_apply length_lt_fuel
  hasKey_separator hasKey_end)

variable {α σ : Type} {cs gap gap' after : List Char}

theorem isBlank_of_isDigit {c : Char} (hc : c.isDigit) : Cursor.isBlank c = false := by
  refine Bool.eq_false_iff.mpr fun hb => ?_
  simp only [Cursor.isBlank, Bool.or_eq_true, decide_eq_true_eq] at hb
  obtain ((rfl | rfl) | rfl) | rfl := hb <;> exact absurd hc (by decide)

/-! ## Words -/

/-- A reader that looks for the next token passes over the blanks before it. -/
theorem token_blank (next : Option Char → Reader α) {pre : List Char} {c : Char} (hp : Blank pre)
    (hc : Cursor.isBlank c = false) (cs : List Char) (line : Nat) :
    ∃ line', (peekToken >>= next) ⟨pre ++ c :: cs, line⟩ =
      (peekToken >>= next) ⟨c :: cs, line'⟩ := by
  obtain ⟨line', h⟩ := peekToken_blank hp hc cs line
  exact ⟨line', (bind_of_ok h).trans (bind_of_ok (peekToken_cons hc cs line')).symm⟩

/-- So it is enough to know what it does where the token stands. -/
theorem takes_token {next : Option Char → Reader α} {c : Char} {a : α}
    (hc : Cursor.isBlank c = false)
    (h : ∀ rest line, Ends rest →
      ∃ line', (peekToken >>= next) ⟨c :: (cs ++ rest), line⟩ = .ok (a, ⟨rest, line'⟩)) :
    Takes (peekToken >>= next) (c :: cs) a := by
  intro pre rest line hp hends
  obtain ⟨line₁, h₁⟩ := token_blank next hp hc (cs ++ rest) line
  obtain ⟨line₂, h₂⟩ := h rest line₁ hends
  exact ⟨line₂, h₁.trans h₂⟩

theorem refuses_token {next : Option Char → Reader α} {c : Char} (hc : Cursor.isBlank c = false)
    (h : ∀ rest line, Ends rest → ∃ e, (peekToken >>= next) ⟨c :: (cs ++ rest), line⟩ = .error e) :
    Refuses (peekToken >>= next) (c :: cs) := by
  intro pre rest line hp hends
  obtain ⟨line₁, h₁⟩ := token_blank next hp hc (cs ++ rest) line
  obtain ⟨e, he⟩ := h rest line₁ hends
  exact ⟨e, h₁.trans he⟩

theorem Takes.map {read : Reader α} {a : α} (h : Takes read cs a) (f : α → σ) :
    Takes (do return f (← read)) cs (f a) := by
  intro pre rest line hp hends
  obtain ⟨line', h'⟩ := h pre rest line hp hends
  exact ⟨line', bind_of_ok h'⟩

theorem Refuses.bind {read : Reader α} {next : α → Reader σ} (h : Refuses read cs) :
    Refuses (read >>= next) cs := by
  intro pre rest line hp hends
  obtain ⟨e, he⟩ := h pre rest line hp hends
  exact ⟨e, bind_of_error he⟩

theorem takes_bool (b : Bool) : Takes bool (boolText b) b := by
  cases b <;> exact takes_token rfl fun rest line _ => ⟨line, rfl⟩

theorem takes_string (s : String) : Takes string (quote s) s :=
  takes_token rfl fun rest line _ =>
    ⟨line, (bind_of_ok (peekToken_cons rfl _ line)).trans (text_quote s rest line)⟩

theorem takes_double {x : Float} (hx : JsonValue.ReadsBack x) :
    Takes number (numberText x) x := by
  obtain ⟨c, cs, read, n, htext, hc, hblank, rfl, hback⟩ := hx.takes
  rw [htext]
  refine takes_token hblank fun rest line hends => ?_
  obtain ⟨line', h⟩ := hback rest line hends
  refine ⟨line', (bind_of_ok (peekToken_cons hblank _ line)).trans ?_⟩
  simp only [Option.bind_some, hc]
  exact bind_of_ok h

/-! ## Whole numbers -/

theorem digitValue_digitChar : ∀ d < 10, digitValue d.digitChar = d := by decide

theorem absorb_snoc {s s' : Nat} {ds : List Char} (h : absorb s ds = (s', 0)) (c : Char)
    (hc : s' * 10 + digitValue c < significandLimit) :
    absorb s (ds ++ [c]) = (s' * 10 + digitValue c, 0) := by
  induction ds generalizing s with
  | nil =>
    cases h
    simp [absorb, hc]
  | cons d ds ih =>
    simp only [absorb, List.cons_append] at h ⊢
    split at h
    · rename_i hlt
      rw [if_pos hlt]
      exact ih h
    · cases h

theorem absorb_naturalText {n : Nat} (hn : n < significandLimit) :
    absorb 0 (naturalText n) = (n, 0) := by
  induction n using Nat.strongRecOn with
  | ind n ih =>
    obtain hlt | hle := Nat.lt_or_ge n 10
    · rw [naturalText, Nat.toDigits_of_lt_base hlt]
      simp [absorb, digitValue_digitChar n hlt, hn]
    · rw [naturalText, Nat.toDigits_of_base_le (by decide) hle]
      have hdigit := digitValue_digitChar (n % 10) (Nat.mod_lt n (by decide))
      have hsum : n / 10 * 10 + digitValue (n % 10).digitChar = n := by omega
      have hinit := ih (n / 10) (by omega) (Nat.lt_of_le_of_lt (Nat.div_le_self n 10) hn)
      rw [← naturalText, absorb_snoc hinit _ (hsum.symm ▸ hn), hsum]

/-- Only zero begins with the digit zero. -/
theorem naturalText_ne_zero {n : Nat} (c : Char) (ds : List Char) :
    naturalText n ≠ '0' :: c :: ds := by
  intro h
  obtain rfl | hpos := Nat.eq_zero_or_pos n
  · cases h
  · exact Decimal.head?_toDigits_ne hpos (by rw [← naturalText, h]; rfl)

theorem isDigit_naturalText (n : Nat) : ∀ c ∈ naturalText n, c.isDigit := fun _ hc =>
  Nat.isDigit_of_mem_toDigits (by decide) (by decide) hc

theorem unsigned_naturalText {n : Nat} (hn : n < significandLimit) (line : Nat) :
    unsigned false ⟨naturalText n, line⟩ = .ok (.natural n, ⟨[], line⟩) := by
  have hdigits : digits ⟨naturalText n, line⟩ = .ok (naturalText n, ⟨[], line⟩) := by
    have hall := isDigit_naturalText n
    have htake : (naturalText n).takeWhile Char.isDigit = naturalText n :=
      List.takeWhile_eq_self_iff.mpr hall
    have hdrop : (naturalText n).dropWhile Char.isDigit = [] := List.dropWhile_eq_nil_iff.mpr hall
    simp only [digits, htake, hdrop]
  have hread := absorb_naturalText hn
  have hzero := naturalText_ne_zero (n := n)
  obtain ⟨d, ds, hcons⟩ := List.exists_cons_of_ne_nil (Nat.toDigits_ne_nil (n := n) (b := 10))
  rw [naturalText, hcons] at hdigits hread hzero ⊢
  rw [unsigned, bind_of_ok hdigits]
  simp only [hread]
  rfl

theorem takes_natural {n limit : Nat} (hn : n ≤ limit) (hlimit : limit < significandLimit) :
    Takes (natural limit) (naturalText n) n := by
  obtain ⟨c, ds, hcons⟩ := List.exists_cons_of_ne_nil (Nat.toDigits_ne_nil (n := n) (b := 10))
  have hc : c.isDigit := isDigit_naturalText n c (by rw [naturalText, hcons]; exact .head _)
  have hsign : c ≠ '-' := by
    rintro rfl
    cases hc
  have hnumeral : numeral? c = some (unsigned false) := by simp [numeral?, hc, hsign]
  have hblank := isBlank_of_isDigit hc
  have hread := unsigned_naturalText (Nat.lt_of_le_of_lt hn hlimit) 1
  rw [naturalText, hcons] at hread ⊢
  refine takes_token hblank fun rest line hends => ?_
  obtain ⟨line', h⟩ := (extendsAt_unsigned false 1 _ _ hread).2 rest line hends
  refine ⟨line', (bind_of_ok (peekToken_cons hblank _ line)).trans ?_⟩
  simp only [Option.bind_some, hnumeral]
  exact (bind_of_ok h).trans (by simp [hn, pure_apply])

/-! ## Lists -/

/-- A list in a layout. -/
def listIn (layout : JsonText.Layout) (level : Nat) (items : List (List Char)) : List Char :=
  '[' :: (listed id (layout.gap (level + 1)) true items ++ (lastGap layout level items ++ [']']))

theorem write_array (layout : JsonText.Layout) (level : Nat) (items : List JsonTree) :
    JsonTree.write layout level (.array items) =
      listIn layout level (items.map (JsonTree.write layout (level + 1))) := by
  rw [JsonTree.write_array, listIn, listed_map, lastGap_map]
  rfl

variable {element : Reader α} {written : α → List Char} {items : List α}

/-- What a reader of lists does where a list begins. -/
theorem listOf_bracket (element : Reader α) (depth : Nat) (cs : List Char) (line : Nat) :
    listOf element (depth + 1) ⟨'[' :: cs, line⟩ = (do
      let items ← elements element (2 * cs.length + 2) true #[]
      endList
      pure items : Reader (Array α)) ⟨cs, Cursor.lineAfter '[' line⟩ :=
  bind_of_ok (peekToken_cons rfl cs line)

theorem takes_listOf (layout : JsonText.Layout) (level depth : Nat)
    (hitems : ∀ a ∈ items, Takes element (written a) a ∧ Opens ']' (written a)) :
    Takes (listOf element (depth + 1)) (listIn layout level (items.map written))
      items.toArray := by
  rw [listIn, listed_map]
  refine takes_token rfl fun rest line _ => ?_
  simp only [List.append_assoc, List.cons_append, List.nil_append]
  have hfuel := length_lt_fuel written (layout.gap (level + 1)) items
    (lastGap layout level (items.map written) ++ ']' :: rest)
  obtain ⟨line', h⟩ := elements_listed (blank_gap layout (level + 1)) (blank_lastGap layout level _)
    hitems hfuel true #[] rest (Cursor.lineAfter '[' line)
  refine ⟨Cursor.lineAfter ']' line', (listOf_bracket element depth _ line).trans
    ((bind_of_ok h).trans ((bind_of_ok (endList_apply rest line')).trans ?_))⟩
  simp [pure_apply]

theorem refuses_listOf (layout : JsonText.Layout) (level depth : Nat)
    (hopens : ∀ a ∈ items, Opens ']' (written a))
    (hitems : ∀ a ∈ items, Takes element (written a) a ∨ Refuses element (written a))
    (hbad : ∃ a ∈ items, Refuses element (written a)) :
    Refuses (listOf element (depth + 1)) (listIn layout level (items.map written)) := by
  rw [listIn, listed_map]
  refine refuses_token rfl fun rest line _ => ?_
  simp only [List.append_assoc, List.cons_append, List.nil_append]
  obtain ⟨e, he⟩ := elements_refused (blank_gap layout (level + 1)) (blank_lastGap layout level _)
    hopens hitems hbad _ true #[] rest (Cursor.lineAfter '[' line)
  exact ⟨e, (listOf_bracket element depth _ line).trans (bind_of_error he)⟩

/-- No list is read where no list may be open. -/
theorem refuses_listOf_zero (layout : JsonText.Layout) (level : Nat)
    (texts : List (List Char)) : Refuses (listOf element 0) (listIn layout level texts) :=
  refuses_token rfl fun _ line _ => ⟨_, bind_of_ok (peekToken_cons rfl _ line)⟩

/-! ## Objects -/

/-- An object in a layout. -/
def objectIn (layout : JsonText.Layout) (level : Nat) (fields : List (String × List Char)) :
    List Char :=
  '\x7b' :: (listed (entryText layout.afterColon id) (layout.gap (level + 1)) true fields ++
    (lastGap layout level fields ++ ['\x7d']))

theorem write_object (layout : JsonText.Layout) (level : Nat) (entries : List (String × JsonTree)) :
    JsonTree.write layout level (.object entries) =
      objectIn layout level (entries.map fun e => (e.1, e.2.write layout (level + 1))) := by
  rw [JsonTree.write_object, objectIn, listed_map, lastGap_map]
  rfl

/-- An object with one field, read by a reader of its name and its value. -/
theorem objectIn_singleton (layout : JsonText.Layout) (level : Nat) (name : String)
    (cs : List Char) : objectIn layout level [(name, cs)] = '\x7b' :: (layout.gap (level + 1) ++
      (quote name ++ ':' :: (layout.afterColon ++ (cs ++ (layout.gap level ++ ['\x7d']))))) := by
  simp [objectIn, listed, separator, entryText, id, lastGap]

variable {fields : List (Field σ)} {seen : List String} {s s' : σ} {key : String}
  {es : List (String × List Char)}

/-- Texts of fields, one after the other, turn what has been read into something else. -/
inductive Fills (fields : List (Field σ)) :
    List String → σ → List (String × List Char) → σ → Prop
  | done {seen : List String} {s : σ} :
    (fields.all fun f => !f.isRequired || seen.contains f.name) = true → Fills fields seen s [] s
  | next {seen : List String} {s s₁ s₂ : σ} {key : String} {field : Field σ}
    {cs : List Char} {es : List (String × List Char)} :
    fields.find? (·.name == key) = some field → seen.contains key = false →
    Takes (field.read s) cs s₁ → Fills fields (key :: seen) s₁ es s₂ →
    Fills fields seen s ((key, cs) :: es) s₂

/-- Of texts of fields one is refused. -/
inductive Breaks (fields : List (Field σ)) :
    List String → σ → List (String × List Char) → Prop
  | here {seen : List String} {s : σ} {key : String} {field : Field σ} {cs : List Char}
    {es : List (String × List Char)} :
    fields.find? (·.name == key) = some field → seen.contains key = false →
    Refuses (field.read s) cs → Breaks fields seen s ((key, cs) :: es)
  | next {seen : List String} {s s₁ : σ} {key : String} {field : Field σ} {cs : List Char}
    {es : List (String × List Char)} :
    fields.find? (·.name == key) = some field → seen.contains key = false →
    Takes (field.read s) cs s₁ → Breaks fields (key :: seen) s₁ es →
    Breaks fields seen s ((key, cs) :: es)

/-- The name of a field is read, then its value and the other fields. -/
theorem namedFields_step {field : Field σ} (hfind : fields.find? (·.name == key) = some field)
    (hseen : seen.contains key = false) (hg : Blank gap) (fuel : Nat) (first : Bool) (s : σ)
    (cs : List Char) (line : Nat) :
    ∃ line', namedFields fields (fuel + 1) first seen s
        ⟨separator first gap ++ (quote key ++ ':' :: cs), line⟩ =
      (do namedFields fields fuel false (key :: seen) (← field.read s) : Reader σ)
        ⟨cs, line'⟩ := by
  obtain ⟨line₁, h₁⟩ := hasKey_separator first hg
    (key.toList.flatMap escape ++ '"' :: (':' :: cs)) line
  have htext := text_quote key (':' :: cs) line₁
  have hcolon := closing_apply (c := ':') rfl cs line₁
  simp only [quote, List.cons_append, List.append_assoc, List.nil_append] at htext ⊢
  refine ⟨Cursor.lineAfter ':' line₁, (bind_of_ok h₁).trans ((bind_of_ok htext).trans ?_)⟩
  simp only [hfind, hseen, Bool.false_eq_true, ↓reduceIte]
  exact bind_of_ok hcolon

theorem Fills.namedFields (h : Fills fields seen s es s') (hg : Blank gap) (hg' : Blank gap')
    (hafter : Blank after) {fuel : Nat} (hfuel : es.length < fuel) (first : Bool)
    (rest : List Char) (line : Nat) : ∃ line', namedFields fields fuel first seen s
      ⟨listed (entryText after id) gap first es ++ (gap' ++ '\x7d' :: rest), line⟩ =
        .ok (s', ⟨'\x7d' :: rest, line'⟩) := by
  induction h generalizing fuel first line with
  | done hall =>
    obtain ⟨fuel, rfl⟩ := Nat.exists_eq_succ_of_ne_zero (Nat.ne_zero_of_lt hfuel)
    obtain ⟨line', h⟩ := hasKey_end first hg' rest line
    exact ⟨line', (bind_of_ok h).trans (by simp only [hall]; rfl)⟩
  | @next seen s s₁ s₂ key field cs es hfind hseen htakes _ ih =>
    obtain ⟨fuel, rfl⟩ := Nat.exists_eq_succ_of_ne_zero (Nat.ne_zero_of_lt hfuel)
    simp only [listed, entryText, id, List.append_assoc, List.cons_append]
    obtain ⟨line₁, h₁⟩ := namedFields_step hfind hseen hg fuel first s (after ++ (cs ++
      (listed (entryText after id) gap false es ++ (gap' ++ '\x7d' :: rest)))) line
    obtain ⟨line₂, h₂⟩ := htakes after _ line₁ hafter
      (ends_listed (entryText after id) gap hg' (ends_brace rest) es)
    obtain ⟨line₃, h₃⟩ := ih (by simpa using hfuel) false line₂
    exact ⟨line₃, h₁.trans ((bind_of_ok h₂).trans h₃)⟩

theorem Breaks.namedFields (h : Breaks fields seen s es) (hg : Blank gap) (hg' : Blank gap')
    (hafter : Blank after) (fuel : Nat) (first : Bool) (rest : List Char) (line : Nat) :
    ∃ e, namedFields fields fuel first seen s
      ⟨listed (entryText after id) gap first es ++ (gap' ++ '\x7d' :: rest), line⟩ = .error e := by
  induction h generalizing fuel first line with
  | @here seen s key field cs es hfind hseen hrefuses =>
    cases fuel with
    | zero => exact ⟨_, rfl⟩
    | succ fuel =>
      simp only [listed, entryText, id, List.append_assoc, List.cons_append]
      obtain ⟨line₁, h₁⟩ := namedFields_step hfind hseen hg fuel first s (after ++ (cs ++
        (listed (entryText after id) gap false es ++ (gap' ++ '\x7d' :: rest)))) line
      obtain ⟨e, he⟩ := hrefuses after _ line₁ hafter
        (ends_listed (entryText after id) gap hg' (ends_brace rest) es)
      exact ⟨e, h₁.trans (bind_of_error he)⟩
  | @next seen s s₁ key field cs es hfind hseen htakes _ ih =>
    cases fuel with
    | zero => exact ⟨_, rfl⟩
    | succ fuel =>
      simp only [listed, entryText, id, List.append_assoc, List.cons_append]
      obtain ⟨line₁, h₁⟩ := namedFields_step hfind hseen hg fuel first s (after ++ (cs ++
        (listed (entryText after id) gap false es ++ (gap' ++ '\x7d' :: rest)))) line
      obtain ⟨line₂, h₂⟩ := htakes after _ line₁ hafter
        (ends_listed (entryText after id) gap hg' (ends_brace rest) es)
      obtain ⟨e, he⟩ := ih fuel false line₂
      exact ⟨e, h₁.trans ((bind_of_ok h₂).trans he)⟩

/-- What a reader of records does where an object begins. -/
theorem record_brace (fields : List (Field σ)) (s : σ) (depth : Nat) (cs : List Char) (line : Nat) :
    record fields s (depth + 1) ⟨'\x7b' :: cs, line⟩ = (do
      let s ← namedFields fields (2 * cs.length + 2) true [] s
      endObject
      pure s : Reader σ) ⟨cs, Cursor.lineAfter '\x7b' line⟩ :=
  bind_of_ok (peekToken_cons rfl cs line)

theorem Fills.takes_record (h : Fills fields [] s es s') (layout : JsonText.Layout)
    (level depth : Nat) : Takes (record fields s (depth + 1)) (objectIn layout level es) s' := by
  refine takes_token rfl fun rest line _ => ?_
  simp only [List.append_assoc, List.cons_append, List.nil_append]
  have hfuel := length_lt_fuel (entryText layout.afterColon id) (layout.gap (level + 1)) es
    (lastGap layout level es ++ '\x7d' :: rest)
  obtain ⟨line', h'⟩ := h.namedFields (blank_gap layout (level + 1)) (blank_lastGap layout level es)
    (blank_afterColon layout) hfuel true rest (Cursor.lineAfter '\x7b' line)
  have hend : endObject ⟨'\x7d' :: rest, line'⟩ = .ok ((), ⟨rest, _⟩) := closing_apply rfl rest line'
  exact ⟨_, (record_brace fields s depth _ line).trans ((bind_of_ok h').trans (bind_of_ok hend))⟩

theorem Breaks.refuses_record (h : Breaks fields [] s es) (layout : JsonText.Layout)
    (level depth : Nat) : Refuses (record fields s (depth + 1)) (objectIn layout level es) := by
  refine refuses_token rfl fun rest line _ => ?_
  simp only [List.append_assoc, List.cons_append, List.nil_append]
  obtain ⟨e, he⟩ := h.namedFields (blank_gap layout (level + 1)) (blank_lastGap layout level es)
    (blank_afterColon layout) _ true rest (Cursor.lineAfter '\x7b' line)
  exact ⟨e, (record_brace fields s depth _ line).trans (bind_of_error he)⟩

/-- No record is read where no object may be open. -/
theorem refuses_record_zero (layout : JsonText.Layout) (level : Nat)
    (es : List (String × List Char)) : Refuses (record fields s 0) (objectIn layout level es) :=
  refuses_token rfl fun _ line _ => ⟨_, bind_of_ok (peekToken_cons rfl _ line)⟩

end JsonText

end FiberMachine
