import FiberMachine.Proofs.Json.Tokens

/-!
# Lists and objects that are read back

Lists and objects are read part by part. When each part is read from its text, so are all of
them, with their separators and the gaps between; when one is refused, so is the whole.
-/

namespace FiberMachine

namespace JsonText

variable {α : Type} {read : Reader α} {pre cs gap gap' : List Char}

theorem ends_cons {c : Char} (hd : c.isDigit = false) (hpoint : c ≠ '.')
    (hexp : startsExponent (some c) = false) (cs : List Char) : Ends (c :: cs) := by
  rintro d hc
  cases hc
  simp [hd, hpoint, hexp]

theorem ends_bracket (cs : List Char) : Ends (']' :: cs) := ends_cons rfl (by decide) rfl cs

theorem ends_brace (cs : List Char) : Ends ('\x7d' :: cs) := ends_cons rfl (by decide) rfl cs

theorem ends_blank {c : Char} (hc : Cursor.isBlank c) (cs : List Char) : Ends (c :: cs) := by
  simp only [Cursor.isBlank, Bool.or_eq_true, decide_eq_true_eq] at hc
  obtain ((rfl | rfl) | rfl) | rfl := hc <;> exact ends_cons rfl (by decide) rfl cs

theorem ends_gap (hp : Blank pre) (hc : Ends cs) : Ends (pre ++ cs) := by
  cases pre with
  | nil => exact hc
  | cons c pre => exact ends_blank (hp c List.mem_cons_self) _

/-- A reader fails at certain characters, wherever they stand. -/
def Refuses (read : Reader α) (cs : List Char) : Prop :=
  ∀ pre rest line, Blank pre → Ends rest → ∃ e, read ⟨pre ++ (cs ++ rest), line⟩ = .error e

/-- How a part of a list or an object begins. -/
def Opens (closing : Char) (cs : List Char) : Prop :=
  ∃ c rest, cs = c :: rest ∧ Cursor.isBlank c = false ∧ c ≠ closing

theorem Opens.append {closing : Char} (h : Opens closing cs) (rest : List Char) :
    Opens closing (cs ++ rest) := by
  obtain ⟨c, cs, rfl, hc⟩ := h
  exact ⟨c, cs ++ rest, rfl, hc⟩

def separator (first : Bool) (gap : List Char) : List Char := if first then gap else ',' :: gap

/-- Parts, each behind its separator. -/
def listed (written : α → List Char) (gap : List Char) : Bool → List α → List Char
  | _, [] => []
  | first, a :: rest => separator first gap ++ written a ++ listed written gap false rest

theorem listed_map {β : Type} (written : β → List Char) (f : α → β) (gap : List Char)
    (first : Bool) (items : List α) :
    listed written gap first (items.map f) = listed (fun a => written (f a)) gap first items := by
  induction items generalizing first with
  | nil => rfl
  | cons a items ih => simp [listed, ih]

/-- The text of an entry. -/
def entryText (after : List Char) (written : α → List Char) (e : String × α) : List Char :=
  quote e.1 ++ ':' :: (after ++ written e.2)

theorem length_le_listed (written : α → List Char) (gap : List Char) (first : Bool)
    (items : List α) : items.length ≤ (listed written gap first items).length + 1 := by
  have hcommas : ∀ items : List α, items.length ≤ (listed written gap false items).length := by
    intro items
    induction items with
    | nil => exact Nat.le_refl _
    | cons a rest ih =>
      simp only [listed, separator, Bool.false_eq_true, ↓reduceIte, List.length_append,
        List.length_cons]
      omega
  cases items with
  | nil => exact Nat.zero_le _
  | cons a rest =>
    have hrest := hcommas rest
    simp only [listed, List.length_append, List.length_cons]
    omega

theorem ends_listed (written : α → List Char) (gap : List Char) {closing : Char} (hg : Blank gap')
    (hclosing : Ends (closing :: cs)) (items : List α) :
    Ends (listed written gap false items ++ (gap' ++ closing :: cs)) := by
  cases items with
  | nil => exact @ends_gap gap' _ hg hclosing
  | cons a rest => exact ends_cons rfl (by decide) rfl _

theorem discard_bind (next : Unit → Reader α) (c : Char) (cs : List Char) (line : Nat) :
    (discard >>= next) ⟨c :: cs, line⟩ = next () ⟨cs, Cursor.lineAfter c line⟩ := rfl

theorem closing_apply {c : Char} (hc : Cursor.isBlank c = false) (cs : List Char) (line : Nat) :
    closing c ⟨c :: cs, line⟩ = .ok ((), ⟨cs, Cursor.lineAfter c line⟩) :=
  (bind_of_ok (peekToken_cons hc cs line)).trans (by simp [discard, Cursor.advance])

/-! ## Lists -/

theorem hasElement_end (first : Bool) (hg : Blank gap) (cs : List Char) (line : Nat) :
    ∃ line', hasElement first ⟨gap ++ ']' :: cs, line⟩ = .ok (false, ⟨']' :: cs, line'⟩) := by
  obtain ⟨line', h⟩ := peekToken_blank hg (c := ']') rfl cs line
  exact ⟨line', bind_of_ok h⟩

theorem hasElement_separator (first : Bool) (hg : Blank gap) (hc : Opens ']' cs)
    (line : Nat) :
    ∃ line', hasElement first ⟨separator first gap ++ cs, line⟩ = .ok (true, ⟨cs, line'⟩) := by
  obtain ⟨c, cs, rfl, hblank, hne⟩ := hc
  cases first with
  | true =>
    obtain ⟨line', h⟩ := peekToken_blank hg hblank cs line
    exact ⟨line', (bind_of_ok h).trans (by simp [pure_apply])⟩
  | false =>
    obtain ⟨line', h⟩ := peekToken_blank hg hblank cs (Cursor.lineAfter ',' line)
    refine ⟨line', (bind_of_ok (peekToken_cons rfl _ line)).trans ?_⟩
    simp [discard_bind, bind_of_ok h, pure_apply]

/-- One element of a list is read, then the others. -/
theorem elements_step (element : Reader α) (fuel : Nat) (first : Bool) (seen : Array α)
    (hg : Blank gap) (hc : Opens ']' cs) (line : Nat) :
    ∃ line', elements element (fuel + 1) first seen ⟨separator first gap ++ cs, line⟩ =
      (do elements element fuel false (seen.push (← element)) : Reader (Array α)) ⟨cs, line'⟩ := by
  obtain ⟨line', h⟩ := hasElement_separator first hg hc line
  exact ⟨line', bind_of_ok h⟩

variable {element : Reader α} {written : α → List Char} {items : List α}

theorem elements_listed (hg : Blank gap) (hg' : Blank gap')
    (hitems : ∀ a ∈ items, Takes element (written a) a ∧ Opens ']' (written a))
    {fuel : Nat} (hfuel : items.length < fuel) (first : Bool) (seen : Array α) (rest : List Char)
    (line : Nat) : ∃ line', elements element fuel first seen
      ⟨listed written gap first items ++ (gap' ++ ']' :: rest), line⟩ =
        .ok (seen ++ items.toArray, ⟨']' :: rest, line'⟩) := by
  induction items generalizing fuel first seen line with
  | nil =>
    obtain ⟨fuel, rfl⟩ := Nat.exists_eq_succ_of_ne_zero (Nat.ne_zero_of_lt hfuel)
    obtain ⟨line', h⟩ := hasElement_end first hg' rest line
    exact ⟨line', (bind_of_ok h).trans (by simp [pure_apply])⟩
  | cons a items ih =>
    obtain ⟨⟨htakes, hopens⟩, hrest⟩ := List.forall_mem_cons.mp hitems
    obtain ⟨fuel, rfl⟩ := Nat.exists_eq_succ_of_ne_zero (Nat.ne_zero_of_lt hfuel)
    simp only [listed, List.append_assoc]
    obtain ⟨line₁, h₁⟩ := elements_step element fuel first seen hg
      (hopens.append (listed written gap false items ++ (gap' ++ ']' :: rest))) line
    obtain ⟨line₂, h₂⟩ := htakes [] _ line₁ nofun
      (ends_listed written gap hg' (ends_bracket rest) items)
    obtain ⟨line₃, h₃⟩ := ih hrest (by simpa using hfuel) false (seen.push a) line₂
    refine ⟨line₃, h₁.trans ((bind_of_ok h₂).trans (h₃.trans ?_))⟩
    simp

theorem elements_refused (hg : Blank gap) (hg' : Blank gap')
    (hopens : ∀ a ∈ items, Opens ']' (written a))
    (hitems : ∀ a ∈ items, Takes element (written a) a ∨ Refuses element (written a))
    (hbad : ∃ a ∈ items, Refuses element (written a)) (fuel : Nat) (first : Bool) (seen : Array α)
    (rest : List Char) (line : Nat) : ∃ e, elements element fuel first seen
      ⟨listed written gap first items ++ (gap' ++ ']' :: rest), line⟩ = .error e := by
  induction items generalizing fuel first seen line with
  | nil => simp at hbad
  | cons a items ih =>
    obtain ⟨ha, hopens⟩ := List.forall_mem_cons.mp hopens
    obtain ⟨htaken, hitems⟩ := List.forall_mem_cons.mp hitems
    cases fuel with
    | zero => exact ⟨_, rfl⟩
    | succ fuel =>
      have hends := ends_listed written gap hg' (ends_bracket rest) items
      simp only [listed, List.append_assoc]
      obtain ⟨line₁, h₁⟩ := elements_step element fuel first seen hg
        (ha.append (listed written gap false items ++ (gap' ++ ']' :: rest))) line
      have hstop : Refuses element (written a) → ∃ e, (do
          elements element fuel false (seen.push (← element)) : Reader (Array α))
            ⟨written a ++ (listed written gap false items ++ (gap' ++ ']' :: rest)), line₁⟩ =
              .error e := fun hrefuses => by
        obtain ⟨e, he⟩ := hrefuses [] _ line₁ nofun hends
        exact ⟨e, bind_of_error he⟩
      rw [h₁]
      obtain ⟨b, hb, hbad⟩ := hbad
      obtain rfl | hb := List.mem_cons.mp hb
      · exact hstop hbad
      obtain htakes | hrefuses := htaken
      · obtain ⟨line₂, h₂⟩ := htakes [] _ line₁ nofun hends
        obtain ⟨e, he⟩ := ih hopens hitems ⟨b, hb, hbad⟩ fuel false (seen.push a) line₂
        exact ⟨e, (bind_of_ok h₂).trans he⟩
      · exact hstop hrefuses

end JsonText

namespace JsonValue

open JsonText

variable {gap gap' after cs : List Char}

/-! ## Objects -/

theorem insertEntry_last {key : String} {seen : List (String × JsonValue)}
    (h : ∀ e ∈ seen, e.1 < key) (v : JsonValue) :
    insertEntry key v seen = seen ++ [(key, v)] := by
  induction seen with
  | nil => rfl
  | cons e seen ih =>
    obtain ⟨he, hrest⟩ := List.forall_mem_cons.mp h
    have hne : key ≠ e.1 := fun h => String.lt_irrefl _ (h ▸ he)
    simp only [insertEntry, String.lt_asymm he, hne, ↓reduceIte, ih hrest, List.cons_append]

theorem hasKey_end (first : Bool) (hg : Blank gap) (cs : List Char) (line : Nat) :
    ∃ line', hasKey first ⟨gap ++ '\x7d' :: cs, line⟩ = .ok (false, ⟨'\x7d' :: cs, line'⟩) := by
  obtain ⟨line', h⟩ := peekToken_blank hg (c := '\x7d') rfl cs line
  exact ⟨line', bind_of_ok h⟩

theorem hasKey_separator (first : Bool) (hg : Blank gap) (cs : List Char) (line : Nat) :
    ∃ line', hasKey first ⟨separator first gap ++ '"' :: cs, line⟩ =
      .ok (true, ⟨'"' :: cs, line'⟩) := by
  cases first with
  | true =>
    obtain ⟨line', h⟩ := peekToken_blank hg (c := '"') rfl cs line
    exact ⟨line', (bind_of_ok h).trans (by simp [pure_apply])⟩
  | false =>
    obtain ⟨line', h⟩ := peekToken_blank hg (c := '"') rfl cs (Cursor.lineAfter ',' line)
    refine ⟨line', (bind_of_ok (peekToken_cons rfl _ line)).trans ?_⟩
    simp [discard_bind, bind_of_ok h, pure_apply]

/-- A key of an object is read, then its value and the other entries. -/
theorem entries_step (value : Reader JsonValue) (fuel : Nat) (first : Bool) (key : String)
    (seen : List (String × JsonValue)) (hg : Blank gap) (cs : List Char) (line : Nat) :
    ∃ line', entries value (fuel + 1) first seen
        ⟨separator first gap ++ (quote key ++ ':' :: cs), line⟩ =
      (do entries value fuel false (insertEntry key (← value) seen) : Reader _) ⟨cs, line'⟩ := by
  obtain ⟨line₁, h₁⟩ := hasKey_separator first hg
    (key.toList.flatMap escape ++ '"' :: (':' :: cs)) line
  have hcolon := closing_apply (c := ':') rfl cs line₁
  have htext := text_quote key (':' :: cs) line₁
  simp only [quote, List.cons_append, List.append_assoc, List.nil_append] at htext ⊢
  exact ⟨_, (bind_of_ok h₁).trans ((bind_of_ok htext).trans (bind_of_ok hcolon))⟩

variable {value : Reader JsonValue} {written : JsonValue → List Char}
  {items : List (String × JsonValue)}

theorem entries_listed (hg : Blank gap) (hg' : Blank gap') (hafter : Blank after)
    (hitems : ∀ e ∈ items, Takes value (written e.2) e.2) {seen : List (String × JsonValue)}
    (hsorted : (seen ++ items).Pairwise (·.1 < ·.1)) {fuel : Nat} (hfuel : items.length < fuel)
    (first : Bool) (rest : List Char) (line : Nat) : ∃ line', entries value fuel first seen
      ⟨listed (entryText after written) gap first items ++ (gap' ++ '\x7d' :: rest), line⟩ =
        .ok (seen ++ items, ⟨'\x7d' :: rest, line'⟩) := by
  induction items generalizing fuel first seen line with
  | nil =>
    obtain ⟨fuel, rfl⟩ := Nat.exists_eq_succ_of_ne_zero (Nat.ne_zero_of_lt hfuel)
    obtain ⟨line', h⟩ := hasKey_end first hg' rest line
    exact ⟨line', (bind_of_ok h).trans (by simp [pure_apply])⟩
  | cons e items ih =>
    obtain ⟨key, v⟩ := e
    obtain ⟨htakes, hrest⟩ := List.forall_mem_cons.mp hitems
    obtain ⟨fuel, rfl⟩ := Nat.exists_eq_succ_of_ne_zero (Nat.ne_zero_of_lt hfuel)
    have hlast : insertEntry key v seen = seen ++ [(key, v)] := by
      refine insertEntry_last (fun e he => ?_) v
      exact (List.pairwise_append.mp hsorted).2.2 e he _ List.mem_cons_self
    simp only [listed, entryText, List.append_assoc, List.cons_append]
    obtain ⟨line₁, h₁⟩ := entries_step value fuel first key seen hg (after ++ (written v ++
      (listed (entryText after written) gap false items ++ (gap' ++ '\x7d' :: rest)))) line
    obtain ⟨line₂, h₂⟩ := htakes after _ line₁ hafter
      (ends_listed (entryText after written) gap hg' (ends_brace rest) items)
    have hsorted' : (seen ++ [(key, v)] ++ items).Pairwise (·.1 < ·.1) := by simpa using hsorted
    obtain ⟨line₃, h₃⟩ := ih hrest hsorted' (by simpa using hfuel) false line₂
    refine ⟨line₃, h₁.trans ((bind_of_ok h₂).trans ?_)⟩
    rw [hlast]
    exact h₃.trans (by simp)

theorem entries_refused (hg : Blank gap) (hg' : Blank gap') (hafter : Blank after)
    (hitems : ∀ e ∈ items, Takes value (written e.2) e.2 ∨ Refuses value (written e.2))
    (hbad : ∃ e ∈ items, Refuses value (written e.2)) (seen : List (String × JsonValue))
    (fuel : Nat) (first : Bool) (rest : List Char) (line : Nat) :
    ∃ err, entries value fuel first seen
      ⟨listed (entryText after written) gap first items ++ (gap' ++ '\x7d' :: rest), line⟩ =
        .error err := by
  induction items generalizing fuel first seen line with
  | nil => simp at hbad
  | cons e items ih =>
    obtain ⟨key, v⟩ := e
    obtain ⟨htaken, hitems⟩ := List.forall_mem_cons.mp hitems
    cases fuel with
    | zero => exact ⟨_, rfl⟩
    | succ fuel =>
      have hends := ends_listed (entryText after written) gap hg' (ends_brace rest) items
      simp only [listed, entryText, List.append_assoc, List.cons_append]
      obtain ⟨line₁, h₁⟩ := entries_step value fuel first key seen hg (after ++ (written v ++
        (listed (entryText after written) gap false items ++ (gap' ++ '\x7d' :: rest)))) line
      have hstop : Refuses value (written v) → ∃ err, (do
          entries value fuel false (insertEntry key (← value) seen) : Reader _)
            ⟨after ++ (written v ++ (listed (entryText after written) gap false items ++
              (gap' ++ '\x7d' :: rest))), line₁⟩ = .error err := fun hrefuses => by
        obtain ⟨err, herr⟩ := hrefuses after _ line₁ hafter hends
        exact ⟨err, bind_of_error herr⟩
      rw [h₁]
      obtain ⟨b, hb, hbad⟩ := hbad
      obtain rfl | hb := List.mem_cons.mp hb
      · exact hstop hbad
      obtain htakes | hrefuses := htaken
      · obtain ⟨line₂, h₂⟩ := htakes after _ line₁ hafter hends
        obtain ⟨err, herr⟩ := ih hitems ⟨b, hb, hbad⟩ (insertEntry key v seen) fuel false line₂
        exact ⟨err, (bind_of_ok h₂).trans herr⟩
      · exact hstop hrefuses

end JsonValue

end FiberMachine
