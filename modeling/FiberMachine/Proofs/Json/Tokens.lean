import Mathlib.Data.List.Basic
import FiberMachine.Json.Value

/-!
# Tokens that are read back

A quoted text is read back whatever stands behind it. A numeral that is read back on its own
is read back before anything that does not go on with it, too, because a reader of numerals
looks at no more than the next character.
-/

namespace FiberMachine

namespace JsonText

variable {α β : Type}

theorem bind_apply (read : Reader α) (next : α → Reader β) (cursor : Cursor) :
    (read >>= next) cursor = (read cursor).bind fun p => next p.1 p.2 := rfl

theorem pure_apply (a : α) (cursor : Cursor) : (pure a : Reader α) cursor = .ok (a, cursor) := rfl

theorem bind_of_ok {read : Reader α} {next : α → Reader β} {cursor after : Cursor} {a : α}
    (h : read cursor = .ok (a, after)) : (read >>= next) cursor = next a after := by
  rw [bind_apply, h]
  rfl

theorem bind_of_error {read : Reader α} {next : α → Reader β} {cursor : Cursor} {e : SyntaxError}
    (h : read cursor = .error e) : (read >>= next) cursor = .error e := by
  rw [bind_apply, h]
  rfl

/-! ## Quoted text -/

theorem hexValue?_hexDigit : ∀ n < 16, hexValue? (hexDigit n) = some n := by decide

theorem unit?_hexDigit {n : Nat} (hn : n < 32) :
    unit? '0' '0' (hexDigit (n / 16)) (hexDigit (n % 16)) = some n := by
  have hhigh := hexValue?_hexDigit (n / 16) (by omega)
  have hlow := hexValue?_hexDigit (n % 16) (by omega)
  have hzero : hexValue? '0' = some 0 := rfl
  simp only [unit?, hzero, hhigh, hlow, Option.pure_def, Option.bind_eq_bind, Option.bind_some,
    Option.some.injEq]
  omega

theorem textFrom_escape (c : Char) (rest : List Char) (line : Nat) (seen : List Char) :
    textFrom (escape c ++ rest) line seen = textFrom rest line (c :: seen) := by
  simp only [escape]
  split_ifs with hquote hbackslash _ _ _ _ _ hcontrol
  iterate 7 · subst_vars; rfl
  · have hlt : c.toNat < 32 := by simpa [isControl] using hcontrol
    have hleading : isLeading c.toNat = false := by
      simp only [isLeading, Bool.and_eq_false_imp, decide_eq_true_eq]
      omega
    have htrailing : isTrailing c.toNat = false := by
      simp only [isTrailing, Bool.and_eq_false_imp, decide_eq_true_eq]
      omega
    simp only [List.cons_append, List.nil_append, textFrom, unit?_hexDigit hlt, hleading, htrailing,
      Bool.false_eq_true, ↓reduceIte, Char.ofNat_toNat]
  · simp only [List.cons_append, List.nil_append]
    rw [textFrom.eq_def]
    split <;> simp_all

theorem textFrom_flatMap_escape (cs rest : List Char) (line : Nat) (seen : List Char) :
    textFrom (cs.flatMap escape ++ '"' :: rest) line seen =
      .ok (seen.reverse ++ cs, ⟨rest, line⟩) := by
  induction cs generalizing seen with
  | nil => simp [textFrom]
  | cons c cs ih =>
    rw [List.flatMap_cons, List.append_assoc, textFrom_escape, ih]
    simp

theorem text_quote (s : String) (rest : List Char) (line : Nat) :
    text ⟨quote s ++ rest, line⟩ = .ok (s, ⟨rest, line⟩) := by
  have hback := textFrom_flatMap_escape s.toList rest line []
  simp only [List.reverse_nil, List.nil_append] at hback
  simp only [text, quote, Cursor.advance, List.cons_append, List.append_assoc, List.nil_append,
    hback, String.ofList_toList]

/-! ## Numerals -/

/-- What may stand behind a value: nothing that a numeral goes on with. -/
def Ends (rest : List Char) : Prop :=
  ∀ c ∈ rest.head?, ¬ c.isDigit ∧ c ≠ '.' ∧ ¬ startsExponent (some c)

/-- What is read from some characters is read from them before others, too. -/
def ExtendsAt (read : Reader α) (cs : List Char) : Prop :=
  ∀ line a after, read ⟨cs, line⟩ = .ok (a, after) → after.rest <:+ cs ∧
    ∀ rest line', Ends rest → ∃ line'', read ⟨cs ++ rest, line'⟩ =
      .ok (a, ⟨after.rest ++ rest, line''⟩)

variable {read : Reader α} {next : α → Reader β} {cs rest : List Char}

theorem ExtendsAt.bind (hr : ExtendsAt read cs) (hn : ∀ a after, ExtendsAt (next a) after) :
    ExtendsAt (read >>= next) cs := by
  intro line b after h
  cases hread : read ⟨cs, line⟩ with
  | error e =>
    rw [bind_apply, hread] at h
    cases h
  | ok p =>
    obtain ⟨a, middle⟩ := p
    rw [bind_of_ok hread] at h
    obtain ⟨hsuffix, hback⟩ := hr line a middle hread
    obtain ⟨hsuffix', hback'⟩ := hn a middle.rest middle.line b after h
    refine ⟨hsuffix'.trans hsuffix, fun rest line' hends => ?_⟩
    obtain ⟨line₁, h₁⟩ := hback rest line' hends
    obtain ⟨line₂, h₂⟩ := hback' rest line₁ hends
    exact ⟨line₂, (bind_of_ok h₁).trans h₂⟩

theorem extendsAt_pure (a : α) : ExtendsAt (pure a : Reader α) cs := by
  rintro line b after h
  cases h
  exact ⟨List.suffix_rfl, fun rest line' _ => ⟨line', rfl⟩⟩

theorem extendsAt_of_error (h : ∀ line, ∃ e, read ⟨cs, line⟩ = .error e) : ExtendsAt read cs := by
  intro line a after hread
  obtain ⟨e, he⟩ := h line
  rw [he] at hread
  cases hread

theorem extendsAt_discard (c : Char) : ExtendsAt discard (c :: cs) := by
  rintro line a after h
  cases h
  exact ⟨List.suffix_cons c cs, fun rest line' _ => ⟨_, rfl⟩⟩

theorem Ends.span (hr : Ends rest) :
    (cs ++ rest).takeWhile Char.isDigit = cs.takeWhile Char.isDigit ∧
      (cs ++ rest).dropWhile Char.isDigit = cs.dropWhile Char.isDigit ++ rest := by
  induction cs with
  | nil =>
    cases rest with
    | nil => exact ⟨rfl, rfl⟩
    | cons c rest => simp [(hr c rfl).1]
  | cons c cs ih => by_cases hc : c.isDigit <;> simp [hc, ih]

theorem extendsAt_digits : ExtendsAt digits cs := by
  rintro line a after h
  cases h
  refine ⟨List.dropWhile_suffix _, fun rest line' hends => ⟨line', ?_⟩⟩
  simp only [digits, hends.span.1, hends.span.2]

theorem extendsAt_real (isNegative : Bool) (s : Nat) (e : Int) :
    ExtendsAt (real isNegative s e) cs := by
  simp only [real]
  split
  · exact extendsAt_pure _
  · exact extendsAt_of_error fun line => ⟨_, rfl⟩

/-- What is done at a character that is there. -/
theorem extendsAt_peek {next : Option Char → Reader β} {c : Char}
    (h : ExtendsAt (next (some c)) (c :: cs)) : ExtendsAt (peek >>= next) (c :: cs) := h

/-- What is done alike at the end and before anything that may follow. -/
theorem extendsAt_peek_end {next : Option Char → Reader β}
    (hnone : ∀ rest, Ends rest → next rest.head? = next none)
    (h : ∀ cs, ExtendsAt (next cs.head?) cs) : ExtendsAt (peek >>= next) cs := by
  cases cs with
  | nil =>
    intro line a after hread
    obtain ⟨hsuffix, hback⟩ := h [] line a after hread
    refine ⟨hsuffix, fun rest line' hends => ?_⟩
    obtain ⟨line'', h'⟩ := hback rest line' hends
    exact ⟨line'', (congrFun (hnone rest hends) _).trans h'⟩
  | cons c cs => exact h (c :: cs)

theorem Ends.startsExponent (hr : Ends rest) : startsExponent rest.head? = false := by
  cases rest with
  | nil => rfl
  | cons c rest => simpa using (hr c rfl).2.2

theorem extendsAt_sign {next : Unit → Reader β} {p : Prop} [Decidable p] (c : Char)
    (h : ∀ cs, ExtendsAt (next ()) cs) :
    ExtendsAt (if p then discard >>= next else next ()) (c :: cs) := by
  split
  · exact (extendsAt_discard c).bind fun _ => h
  · exact h _

theorem extendsAt_exponentPart (isNegative : Bool) (s : Nat) (e : Int) :
    ExtendsAt (exponentPart isNegative s e) cs := by
  cases cs with
  | nil => exact extendsAt_of_error fun line => ⟨_, rfl⟩
  | cons c cs =>
    refine (extendsAt_discard c).bind fun _ after => ?_
    cases after with
    | nil => exact extendsAt_of_error fun line => ⟨_, rfl⟩
    | cons c cs =>
      refine extendsAt_peek (extendsAt_sign c fun cs => extendsAt_digits.bind fun ds after => ?_)
      dsimp only
      split
      · exact extendsAt_of_error fun line => ⟨_, rfl⟩
      · split
        · split
          · exact extendsAt_of_error fun line => ⟨_, rfl⟩
          · exact extendsAt_pure _
        · exact extendsAt_real _ _ _

theorem extendsAt_fractionPart (isNegative : Bool) (s : Nat) (e : Int) :
    ExtendsAt (fractionPart isNegative s e) cs := by
  cases cs with
  | nil => exact extendsAt_of_error fun line => ⟨_, rfl⟩
  | cons c cs =>
    refine (extendsAt_discard c).bind fun _ after => extendsAt_digits.bind fun ds after => ?_
    dsimp only
    split
    · exact extendsAt_of_error fun line => ⟨_, rfl⟩
    · refine extendsAt_peek_end (fun rest hends => by rw [hends.startsExponent]; rfl) fun cs => ?_
      split
      · exact extendsAt_exponentPart _ _ _
      · exact extendsAt_real _ _ _

theorem extendsAt_unsigned (isNegative : Bool) : ExtendsAt (unsigned isNegative) cs := by
  refine extendsAt_digits.bind fun ds after => ?_
  split
  · exact extendsAt_of_error fun line => ⟨_, rfl⟩
  · exact extendsAt_of_error fun line => ⟨_, rfl⟩
  · refine extendsAt_peek_end (fun rest hends => ?_) fun cs => ?_
    · have hpoint : rest.head? ≠ some '.' := fun h => (hends _ h).2.1 rfl
      rw [if_neg hpoint, hends.startsExponent]
      rfl
    · split
      · exact extendsAt_fractionPart _ _ _
      split
      · exact extendsAt_exponentPart _ _ _
      split
      · exact extendsAt_pure _
      · exact extendsAt_real _ _ _

/-! ## Blanks -/

def Blank (cs : List Char) : Prop := ∀ c ∈ cs, Cursor.isBlank c

theorem skipBlankFrom_blank {pre : List Char} (hp : Blank pre) (cs : List Char) (line : Nat) :
    ∃ line', Cursor.skipBlankFrom (pre ++ cs) line = Cursor.skipBlankFrom cs line' := by
  induction pre generalizing line with
  | nil => exact ⟨line, rfl⟩
  | cons c pre ih =>
    obtain ⟨line', h⟩ := ih (fun c hc => hp c (List.mem_cons_of_mem _ hc)) (Cursor.lineAfter c line)
    exact ⟨line', by simp [Cursor.skipBlankFrom, hp c List.mem_cons_self, h]⟩

theorem peekToken_cons {c : Char} (hc : Cursor.isBlank c = false) (cs : List Char) (line : Nat) :
    peekToken ⟨c :: cs, line⟩ = .ok (some c, ⟨c :: cs, line⟩) := by
  simp [peekToken, blanks, peek, bind_apply, Cursor.skipBlank, Cursor.skipBlankFrom, hc,
    Except.bind]

theorem peekToken_blank {pre : List Char} {c : Char} (hp : Blank pre) (hc : Cursor.isBlank c = false)
    (cs : List Char) (line : Nat) :
    ∃ line', peekToken ⟨pre ++ c :: cs, line⟩ = .ok (some c, ⟨c :: cs, line'⟩) := by
  obtain ⟨line', h⟩ := skipBlankFrom_blank hp (c :: cs) line
  refine ⟨line', Eq.trans ?_ (peekToken_cons hc cs line')⟩
  simp only [peekToken, blanks, bind_apply, Cursor.skipBlank, h]

theorem endOfText_cons {c : Char} (hc : Cursor.isBlank c = false) (cs : List Char) (line : Nat) :
    endOfText ⟨c :: cs, line⟩ = .error ⟨(Cursor.advance ⟨c :: cs, line⟩).line⟩ :=
  bind_of_ok (peekToken_cons hc cs line)

/-- A reader takes blanks and certain characters, no more, and gives a result. -/
def Takes (read : Reader α) (cs : List Char) (a : α) : Prop :=
  ∀ pre rest line, Blank pre → Ends rest →
    ∃ line', read ⟨pre ++ (cs ++ rest), line⟩ = .ok (a, ⟨rest, line'⟩)

end JsonText

/-! ## Written numbers -/

namespace Decimal

def isFigure (c : Char) : Bool := c.isDigit || c = '.' || c = 'e' || c = '+' || c = '-'

/-- How a written number without its sign begins, and what it is made of. -/
structure Figures (cs : List Char) : Prop where
  head : ∃ c rest, cs = c :: rest ∧ c.isDigit
  all : ∀ c ∈ cs, isFigure c

variable {cs cs' : List Char}

theorem Figures.append (h : Figures cs) (h' : ∀ c ∈ cs', isFigure c) : Figures (cs ++ cs') where
  head := by
    obtain ⟨c, rest, rfl, hc⟩ := h.head
    exact ⟨c, rest ++ cs', rfl, hc⟩
  all c hc := (List.mem_append.mp hc).elim (h.all c) (h' c)

theorem figures_of_isDigit (hcs : cs ≠ []) (h : ∀ c ∈ cs, c.isDigit) : Figures cs where
  head := by
    obtain ⟨c, rest, rfl⟩ := List.exists_cons_of_ne_nil hcs
    exact ⟨c, rest, rfl, h c List.mem_cons_self⟩
  all c hc := by simp [isFigure, h c hc]

theorem isFigure_of_isDigit {c : Char} (hc : c.isDigit) : isFigure c := by simp [isFigure, hc]

theorem isFigure_zeros (n : Nat) : ∀ c ∈ zeros n, isFigure c := fun c hc => by
  rw [List.eq_of_mem_replicate hc]
  rfl

theorem figures_positional (d : Decimal) : Figures d.positional := by
  have hdigits := d.isDigit_digits
  have hfigures := figures_of_isDigit Nat.toDigits_ne_nil hdigits
  simp only [positional]
  split
  · exact hfigures.append (isFigure_zeros _)
  split
  · rename_i hlt
    refine (figures_of_isDigit ?_ fun c hc => hdigits c (List.mem_of_mem_take hc)).append ?_
    · rw [Ne, List.take_eq_nil_iff]
      rintro (hnone | hnone)
      · omega
      · exact Nat.toDigits_ne_nil hnone
    · intro c hc
      obtain rfl | hc := List.mem_cons.mp hc
      · rfl
      · exact isFigure_of_isDigit (hdigits c (List.mem_of_mem_drop hc))
  · refine Figures.append ⟨⟨'0', _, rfl, rfl⟩, ?_⟩ fun c hc => isFigure_of_isDigit (hdigits c hc)
    simp [isFigure, zeros]

theorem figures_scientific (d : Decimal) (n : Nat) : Figures (d.scientific n) := by
  have hdigits := d.isDigit_digits
  have hfirst : Figures (d.digits.take 1) := by
    refine figures_of_isDigit ?_ fun c hc => hdigits c (List.mem_of_mem_take hc)
    rw [Ne, List.take_eq_nil_iff]
    exact fun hnone => hnone.elim nofun Nat.toDigits_ne_nil
  simp only [scientific, List.append_assoc]
  refine hfirst.append fun c hc => ?_
  simp only [List.mem_append, List.mem_cons] at hc
  obtain hc | rfl | rfl | hc | hc := hc
  · split at hc
    · cases hc
    · obtain rfl | hc := List.mem_cons.mp hc
      · rfl
      · exact isFigure_of_isDigit (hdigits c (List.mem_of_mem_drop hc))
  · rfl
  · split <;> rfl
  · exact isFigure_zeros _ c hc
  · exact isFigure_of_isDigit (Nat.isDigit_of_mem_toDigits (by decide) (by decide) hc)

end Decimal

/-- A number in a JSON text begins with a sign or a digit, and no blank is in it. -/
theorem Double.figures_json {x : Float} {s : String} (h : Double.json? x = some s) :
    Decimal.Figures s.toList ∨ ∃ cs, s.toList = '-' :: cs ∧ Decimal.Figures cs := by
  have hsigned : ∀ negative cs, Decimal.Figures cs → Decimal.Figures (signed negative cs).toList ∨
      ∃ cs', (signed negative cs).toList = '-' :: cs' ∧ Decimal.Figures cs' := by
    rintro (_ | _) cs hcs
    · exact .inl (by simpa [signed] using hcs)
    · exact .inr ⟨cs, by simp [signed], hcs⟩
  simp only [Double.json?] at h
  split at h
  · cases h
  · cases h
  · rename_i negative m hm
    split at h
    · cases h
      exact hsigned _ _ ⟨⟨'0', _, rfl, rfl⟩, by simp [Decimal.isFigure]⟩
    · cases h
      refine hsigned _ _ ?_
      split
      · refine (Decimal.figures_positional _).append ?_
        split <;> simp [Decimal.isFigure]
      · exact Decimal.figures_scientific _ _

namespace JsonValue

open JsonText

/-- The number that a JSON text of a double is read as is the double again. -/
def ReadsBack (x : Float) : Prop := parse (String.ofList (numberText x)) = .ok (.number x)

/-- Blanks before a value are passed over. -/
theorem valueWith_blank (array object : Reader JsonValue) {pre : List Char} {c : Char}
    (hp : Blank pre) (hc : Cursor.isBlank c = false) (cs : List Char) (line : Nat) :
    ∃ line', valueWith array object ⟨pre ++ c :: cs, line⟩ =
      valueWith array object ⟨c :: cs, line'⟩ := by
  obtain ⟨line', h⟩ := peekToken_blank hp hc cs line
  exact ⟨line', by rw [valueWith, bind_of_ok h, bind_of_ok (peekToken_cons hc cs line')]⟩

/-- Where a numeral begins, a value is read as a number. -/
theorem valueWith_numeral (array object : Reader JsonValue) {c : Char} {read : Reader Numeral}
    (hc : numeral? c = some read) (hblank : Cursor.isBlank c = false) (cs : List Char)
    (line : Nat) : valueWith array object ⟨c :: cs, line⟩ =
      (do return .number (← read).toFloat : Reader JsonValue) ⟨c :: cs, line⟩ := by
  have hne : ∀ d, numeral? d = none → c ≠ d := by
    rintro d hd rfl
    simp [hd] at hc
  rw [valueWith, bind_of_ok (peekToken_cons hblank cs line)]
  simp [hc, hne 'n' rfl, hne 't' rfl, hne 'f' rfl, hne '"' rfl, hne '[' rfl, hne '\x7b' rfl]

/-- The text of a number that is read back is one numeral without blanks. -/
theorem ReadsBack.numeral {x : Float} (hx : ReadsBack x) :
    ∃ c cs read, numberText x = c :: cs ∧ numeral? c = some read ∧ ExtendsAt read (c :: cs) ∧
      ∀ d ∈ c :: cs, Cursor.isBlank d = false := by
  have hblank : ∀ d, Decimal.isFigure d → Cursor.isBlank d = false := fun d hd => by
    refine Bool.eq_false_iff.mpr fun hb => ?_
    simp only [Cursor.isBlank, Bool.or_eq_true, decide_eq_true_eq] at hb
    obtain ((rfl | rfl) | rfl) | rfl := hb <;> exact absurd hd (by decide)
  cases hj : Double.json? x with
  | none =>
    have hnull : parse "null" = .ok .null := rfl
    simp only [ReadsBack, numberText, hj, Option.getD_none, String.ofList_toList, hnull] at hx
    cases hx
  | some s =>
    simp only [numberText, hj, Option.getD_some]
    obtain hs | ⟨cs, hcs, hs⟩ := Double.figures_json hj
    · obtain ⟨c, cs, hcs, hc⟩ := hs.head
      have hsign : c ≠ '-' := by
        rintro rfl
        cases hc
      refine ⟨c, cs, unsigned false, hcs, by simp [numeral?, hc, hsign], extendsAt_unsigned _,
        fun d hd => hblank d (hs.all d (hcs ▸ hd))⟩
    · refine ⟨'-', cs, _, hcs, rfl, (extendsAt_discard _).bind fun _ _ => extendsAt_unsigned _, ?_⟩
      intro d hd
      obtain rfl | hd := List.mem_cons.mp hd
      · rfl
      · exact hblank d (hs.all d hd)

/-- A number that is read back on its own is read back before whatever may stand behind it. -/
theorem ReadsBack.takes {x : Float} (hx : ReadsBack x) :
    ∃ c cs read n, numberText x = c :: cs ∧ numeral? c = some read ∧
      Cursor.isBlank c = false ∧ n.toFloat = x ∧ ∀ rest line, Ends rest →
        ∃ line', read ⟨c :: (cs ++ rest), line⟩ = .ok (n, ⟨rest, line'⟩) := by
  obtain ⟨c, cs, read, htext, hc, hextends, hblank⟩ := hx.numeral
  have hc' := hblank c List.mem_cons_self
  have hread : reader maxDepth ⟨c :: cs, 1⟩ =
      (do return .number (← read).toFloat : Reader JsonValue) ⟨c :: cs, 1⟩ :=
    valueWith_numeral _ _ hc hc' cs 1
  simp only [ReadsBack, htext, parse, run, Cursor.start, String.toList_ofList, StateT.run,
    bind_apply, hread] at hx
  cases hn : read ⟨c :: cs, 1⟩ with
  | error e =>
    rw [hn] at hx
    cases hx
  | ok p =>
    obtain ⟨n, ⟨left, line'⟩⟩ := p
    obtain ⟨hsuffix, hback⟩ := hextends 1 n _ hn
    rw [hn] at hx
    -- the text ends behind the numeral, because no blank could stand there
    obtain rfl : left = [] := by
      cases left with
      | nil => rfl
      | cons d left =>
        have hd := hblank d (hsuffix.subset List.mem_cons_self)
        have he := endOfText_cons hd left line'
        simp only [Except.bind, pure_apply, he] at hx
        cases hx
    exact ⟨c, cs, read, n, htext, hc, hc', number.inj (Except.ok.inj hx), hback⟩

/-- A number that is read back on its own is read back among other values. -/
theorem takes_number (array object : Reader JsonValue) {x : Float} (hx : ReadsBack x) :
    Takes (valueWith array object) (numberText x) (.number x) := by
  obtain ⟨c, cs, read, n, htext, hc, hblank, rfl, hback⟩ := hx.takes
  intro pre rest line hp hends
  obtain ⟨line₁, h₁⟩ := valueWith_blank array object hp hblank (cs ++ rest) line
  obtain ⟨line₂, h₂⟩ := hback rest line₁ hends
  refine ⟨line₂, ?_⟩
  rw [htext]
  exact h₁.trans ((valueWith_numeral array object hc hblank _ _).trans (bind_of_ok h₂))

end JsonValue

end FiberMachine
