import FiberMachine.Proofs.Object.Signs
import FiberMachine.Span

/-!
# The length of a span

The values of a span are found by adding the step again and again, but they are only looked for
when the length is not zero, and the length is a quotient that is rounded. The two ways to see
that a span is empty agree except when the step is not finite or the quotient is lost to rounding.
-/

namespace FiberMachine

namespace Double

open Float.Model UnpackedFloat

/-! ## The parts of a double -/

theorem toNat_unpackSign (w : UInt64) :
    (@unpackSign format w.toBitVec).toNat = w.toNat / 2 ^ 63 % 2 := by
  simp [unpackSign, BitVec.extractLsb, Nat.shiftRight_eq_div_pow]

theorem ofBitVec_unpackSign (w : UInt64) :
    (Sign.ofBitVec (@unpackSign format w.toBitVec) == .negative) =
      decide (0x8000000000000000 ≤ w.toNat) := by
  have hsign := toNat_unpackSign w
  have hlt := w.toNat_lt
  generalize (@unpackSign format w.toBitVec) = b at hsign ⊢
  rcases BitVec.eq_zero_or_eq_one b with rfl | rfl
  · have hpos : ¬ 0x8000000000000000 ≤ w.toNat := by
      change 0 = _ at hsign
      omega
    rw [decide_eq_false hpos]
    rfl
  · have hneg : 0x8000000000000000 ≤ w.toNat := by
      change 1 = _ at hsign
      omega
    rw [decide_eq_true hneg]
    rfl

/-- The parts of a double that has been taken apart. -/
def ofUnpacked : UnpackedFloat → Double
  | .notANumber => .nan
  | .infinity s => .infinite (s == .negative)
  | .zero s => .finite (s == .negative) ⟨0, 0⟩
  | .finite s m e _ => .finite (s == .negative) ⟨m, (e + 1074).toNat⟩

/-- The parts of a double are those that its word is read as. -/
theorem ofFloat_eq (x : Float) : ofFloat x = ofUnpacked x.toModel.unpack := by
  change ofBits x.toBits = ofUnpacked (UnpackedFloat.unpack format x.toBits.toBitVec)
  generalize x.toBits = w
  have hexponent : w.toNat >>> fractionBits % 2048 = (@unpackExponent format w.toBitVec).toNat := by
    rw [toNat_unpackExponent, fractionBits, Nat.shiftRight_eq_div_pow]
    rfl
  have hfraction : w.toNat % 1 <<< fractionBits = (@unpackMantissa format w.toBitVec).toNat := by
    rw [toNat_unpackMantissa, fractionBits, Nat.one_shiftLeft]
  have hones : (@unpackExponent format w.toBitVec).toNat = 2047 ↔
      @unpackExponent format w.toBitVec = -1#11 := @BitVec.toNat_inj _ _ (-1#11)
  have hzero : (@unpackExponent format w.toBitVec).toNat = 0 ↔
      @unpackExponent format w.toBitVec = 0#11 := @BitVec.toNat_inj _ _ 0#11
  have hempty : (@unpackMantissa format w.toBitVec).toNat = 0 ↔
      @unpackMantissa format w.toBitVec = 0#52 := @BitVec.toNat_inj _ _ 0#52
  have hbias : (format.exponentBias : Int) = 1023 := rfl
  unfold ofBits UnpackedFloat.unpack
  simp only [← ofBitVec_unpackSign, hexponent, hfraction, hones, hzero, hempty]
  by_cases hones : @unpackExponent format w.toBitVec = -1#11
  · rw [if_pos hones, if_pos hones]
    split <;> rfl
  · rw [if_neg hones, if_neg hones]
    by_cases hzero : @unpackExponent format w.toBitVec = 0#11
    · rw [if_pos hzero, if_pos hzero]
      split
      · next hman =>
        rw [hman]
        rfl
      · rw [hzero]
        rfl
    · have hword : (1#1 ++ @unpackMantissa format w.toBitVec).toNat =
          1 <<< fractionBits + (@unpackMantissa format w.toBitVec).toNat := by
        rw [BitVec.toNat_append, ← Nat.shiftLeft_add_eq_or_of_lt (BitVec.isLt _)]
        rfl
      rw [if_neg hzero, if_neg hzero, ofUnpacked, hword]
      congr 2
      simp only [hbias]
      omega

/-! ## Rounding up -/

theorem isIntegral_zero : (Magnitude.mk 0 0).isIntegral = true := by decide

theorem round_zero {x : Float} {s : Sign} (hx : x.toModel.unpack = .zero s) (r : Rounding) :
    round r x = x := by
  rw [round, ofFloat_eq, hx, ofUnpacked]
  exact if_pos isIntegral_zero

variable {x : Float} {bound : Nat}

theorem AtLeast.mono {t t' : Int} {u : UnpackedFloat} (h : AtLeast t u) (ht : t' ≤ t) :
    AtLeast t' u := by
  rcases u with (_ | _) | _ | _ | ⟨_ | _, m, e, hm⟩
  case infinity.positive => trivial
  case finite.positive =>
    exact ⟨h.1, (Nat.pow_le_pow_right (by decide) (by omega)).trans h.2⟩
  all_goals exact h.elim

theorem clamp_pos_of_le {negative : Bool} {m : Magnitude} (hx : ofFloat x = .finite negative m)
    (hsign : negative = false) (hle : m.denominator ≤ m.numerator) (hbound : 0 < bound) :
    0 < clamp x 0 bound := by
  have hone : 0 < m.numerator / m.denominator := Nat.div_pos hle m.denominator_pos
  subst hsign
  rw [clamp, hx]
  simp only [Bool.false_eq_true, ↓reduceIte, ← Int.natCast_ediv]
  omega

theorem clamp_pos (hx : AtLeast 0 x.toModel.unpack) (hbound : 0 < bound) :
    0 < clamp x 0 bound := by
  cases hu : x.toModel.unpack with
  | notANumber | zero s =>
    rw [hu] at hx
    exact hx.elim
  | infinity s =>
    rw [hu] at hx
    cases s with
    | negative => exact hx.elim
    | positive =>
      rw [clamp, ofFloat_eq, hu]
      exact Int.natCast_pos.mpr hbound
  | finite s m e hm =>
    rw [hu] at hx
    cases s with
    | negative => exact hx.elim
    | positive =>
      have hleast := hx.1.least
      refine clamp_pos_of_le ((ofFloat_eq x).trans (congrArg ofUnpacked hu)) rfl ?_ hbound
      rw [Magnitude.numerator, Magnitude.denominator, Magnitude.unitPlaces, Nat.one_shiftLeft,
        Nat.shiftLeft_eq]
      calc 2 ^ (1074 - (e + 1074).toNat) ≤ 2 ^ (0 - e).toNat :=
            Nat.pow_le_pow_right (by decide) (by omega)
        _ ≤ m := hx.2
        _ ≤ m * 2 ^ ((e + 1074).toNat - 1074) := Nat.le_mul_of_pos_right _ (Nat.two_pow_pos _)

/-- A number above zero that is rounded up counts for one at least. -/
theorem round_up_of_atLeast (bound : Nat) (hx : AtLeast (-1074) x.toModel.unpack) :
    AtLeast (-1074) (round .up x).toModel.unpack ∧
      (0 < bound → 0 < clamp (round .up x) 0 bound) := by
  cases hu : x.toModel.unpack with
  | notANumber | zero s =>
    rw [hu] at hx
    exact hx.elim
  | infinity s =>
    have hround : round .up x = x := by rw [round, ofFloat_eq, hu, ofUnpacked]
    rw [hround]
    refine ⟨hx, clamp_pos ?_⟩
    rw [hu] at hx ⊢
    cases s <;> exact hx
  | finite s m e hm =>
    rw [hu] at hx
    cases s with
    | negative => exact hx.elim
    | positive =>
      have hparts : ofFloat x = .finite false ⟨m, (e + 1074).toNat⟩ :=
        (ofFloat_eq x).trans (congrArg ofUnpacked hu)
      by_cases hwhole : (Magnitude.mk m (e + 1074).toNat).isIntegral = true
      · have hround : round .up x = x := by
          rw [round, hparts]
          exact if_pos hwhole
        have hnumerator : 0 < (Magnitude.mk m (e + 1074).toNat).numerator :=
          Nat.shiftLeft_pos_iff.mpr hm
        rw [hround, hu]
        refine ⟨hx, clamp_pos_of_le hparts rfl (Nat.le_of_dvd hnumerator ?_)⟩
        exact Nat.dvd_of_mod_eq_zero (beq_iff_eq.mp hwhole)
      · have hround : round .up x = Float.ofNat (roundMagnitude .up false ⟨m, (e + 1074).toNat⟩) := by
          rw [round, hparts]
          exact if_neg hwhole
        have hone : 0 < roundMagnitude .up false ⟨m, (e + 1074).toNat⟩ := by
          simp only [roundMagnitude, hwhole]
          exact Nat.succ_pos _
        have hleast := atLeast_ofNat hone
        rw [hround]
        exact ⟨hleast.mono (by decide), clamp_pos hleast⟩

end Double

namespace Span

variable {s : Span}

/-- The values of a span are lost when it goes from its start toward its end, by a step other than
zero, but the length says that it is empty: the step is not finite, or the distance is so much
smaller than the step that their quotient is zero. -/
def Lost (s : Span) : Prop :=
  s.contains s.start = true ∧ (s.step == 0.0) = false ∧
    (s.step.isFinite = false ∨ ((s.stop - s.start) / s.step == 0.0) = true)

theorem sign?_quotient (hc : s.contains s.start = true) (hz : (s.step == 0.0) = false)
    (hf : s.step.isFinite = true) :
    Double.sign? ((s.stop - s.start) / s.step).toModel.unpack = some .positive := by
  refine Double.sign?_div hf hz ?_
  unfold contains at hc
  split at hc
  · next hup =>
    rw [if_pos hup]
    exact (Double.sign?_sub (of_decide_eq_true hc)).1
  · next hdown =>
    rw [if_neg hdown]
    exact (Double.sign?_sub (of_decide_eq_true hc)).2

/-- The length of a span that goes from its start toward its end is not zero, unless the step is
zero or the values are lost. -/
theorem length_eq_zero_iff (hc : s.contains s.start = true) :
    s.length = .ok 0 ↔ (s.step == 0.0) = true ∨ s.Lost := by
  constructor
  · intro h
    cases hz : s.step == 0.0 with
    | true => exact .inl rfl
    | false =>
      cases hf : s.step.isFinite with
      | false => exact .inr ⟨hc, hz, .inl hf⟩
      | true =>
        refine .inr ⟨hc, hz, .inr ?_⟩
        by_contra hq
        have hleast := Double.atLeast_of_sign? (sign?_quotient hc hz hf) (Bool.eq_false_iff.mpr hq)
        obtain ⟨hcount, hpos⟩ := Double.round_up_of_atLeast maxLength hleast
        simp only [length, hz, hf, Bool.not_true, Bool.or_self, Bool.false_eq_true, ↓reduceIte,
          Double.isNaN_of_atLeast hcount, Bool.false_or, decide_eq_true_eq,
          Double.not_le_zero hcount] at h
        have hpos := hpos (by decide)
        split at h
        · cases h
        · simp only [Except.ok.injEq] at h
          omega
  · rintro (hz | ⟨-, hz, hf | hq⟩)
    · simp [length, hz]
    · simp [length, hf]
    · obtain ⟨sign, hsign⟩ := Double.beq_zero_iff.mp hq
      have hle : Double.round .up ((s.stop - s.start) / s.step) ≤ 0.0 := by
        rw [Double.round_zero hsign, Double.le_iff, hsign, Double.unpack_zero]
        rfl
      simp [length, hle]

/-- Lost values told by what is compared and not by the parts of the quotient. -/
theorem lost_iff : s.Lost ↔
    s.contains s.start = true ∧ (s.step == 0.0) = false ∧ s.length = .ok 0 := by
  constructor
  · intro h
    exact ⟨h.1, h.2.1, (length_eq_zero_iff h.1).mpr (.inr h)⟩
  · rintro ⟨hc, hz, hl⟩
    exact ((length_eq_zero_iff hc).mp hl).resolve_left (Bool.eq_false_iff.mp hz)

/-- A span from zero to the least double has no values in steps of three, but a loop enters it. -/
example : Span.Lost ⟨0.0, Float.ofBits 1, 3.0⟩ :=
  ⟨by decide +kernel, by decide +kernel, .inr (by decide +kernel)⟩

/-! ## Values from a cursor on -/

/-- Whether there is no value at a cursor. -/
def ends (s : Span) (cursor : Float) : Bool := s.step == 0.0 || !s.contains cursor

/-- From a cursor on a span has these values and no more. -/
inductive Yields (s : Span) : Float → List Float → Prop
  | nil {cursor : Float} : s.ends cursor = true → Yields s cursor []
  | cons {cursor next : Float} {rest : List Float} : s.ends cursor = false →
      s.advance cursor = .ok next → Yields s next rest → Yields s cursor (cursor :: rest)

theorem ends_eq_not_contains (hz : (s.step == 0.0) = false) (cursor : Float) :
    s.ends cursor = !s.contains cursor := by
  rw [ends, hz, Bool.false_or]

theorem yields_of_valuesFrom (hz : (s.step == 0.0) = false) {room : Nat} {cursor : Float}
    {seen vs : Array Float} (h : s.valuesFrom room cursor seen = .ok vs) :
    ∃ rest, vs.toList = seen.toList ++ rest ∧ s.Yields cursor rest := by
  induction room generalizing cursor seen with
  | zero =>
    unfold valuesFrom at h
    split at h
    · cases h
    · next hc =>
      cases h
      exact ⟨[], by simp, .nil (by simp [ends_eq_not_contains hz, hc])⟩
  | succ room ih =>
    unfold valuesFrom at h
    split at h
    · next hc =>
      cases hnext : s.advance cursor with
      | error fault => rw [hnext] at h; cases h
      | ok next =>
        rw [hnext] at h
        obtain ⟨rest, heq, hrest⟩ := ih h
        refine ⟨cursor :: rest, by simp [heq], .cons ?_ hnext hrest⟩
        simp [ends_eq_not_contains hz, hc]
    · next hc =>
      cases h
      exact ⟨[], by simp, .nil (by simp [ends_eq_not_contains hz, hc])⟩

theorem values_of_length (h : s.length = .ok 0) : s.values = .ok #[] := by
  simp [values, h]

theorem values_of_lost (h : s.Lost) : s.values = .ok #[] :=
  values_of_length (lost_iff.mp h).2.2

/-- The values of a span, unless they are lost, are what it has from its start on. -/
theorem yields_of_values (hl : ¬ s.Lost) {vs : Array Float} (h : s.values = .ok vs) :
    s.Yields s.start vs.toList := by
  by_cases hempty : s.length = .ok 0
  · rw [values_of_length hempty] at h
    cases h
    refine .nil ?_
    cases hc : s.contains s.start with
    | false => simp [ends, hc]
    | true => simp [ends, ((length_eq_zero_iff hc).mp hempty).resolve_right hl]
  · cases hz : s.step == 0.0 with
    | true => exact absurd (by simp [length, hz]) hempty
    | false =>
      unfold values at h
      split at h
      · cases h
      · next hzero => exact absurd hzero hempty
      · obtain ⟨rest, heq, hrest⟩ := yields_of_valuesFrom hz h
        rw [heq]
        exact hrest

end Span

end FiberMachine
