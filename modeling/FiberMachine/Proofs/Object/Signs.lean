import FiberMachine.Proofs.Object.Doubles

/-!
# The signs of doubles

Every operation on doubles rounds, and rounding may take a result to zero or to infinity, but it
keeps the side of zero that the exact result is on. A difference of two doubles in their order is
therefore positive or it is a zero with the sign of a positive number, and a quotient has the sign
that its operands give it.
-/

namespace FiberMachine

namespace Double

open Float.Model UnpackedFloat

variable {x y : UnpackedFloat} {s : Sign} {m m₁ m₂ : Nat} {e e₁ e₂ : Int}

/-- The sign of a number, that of a zero included. -/
def sign? : UnpackedFloat → Option Sign
  | .notANumber => none
  | .infinity s | .zero s | .finite s _ _ _ => some s

theorem sign?_unpack (b : BitVec format.numBits) : sign? (UnpackedFloat.unpack format b) =
    if isNaNBits b then none else some (.ofBitVec (unpackSign b)) := by
  by_cases hexp : unpackExponent b = -1#_
  · by_cases hman : unpackMantissa b = 0#_ <;>
      simp [UnpackedFloat.unpack, isNaNBits, hexp, hman, sign?]
  · have hnumber : isNaNBits b = false := decide_eq_false fun h => hexp h.1
    rw [hnumber, UnpackedFloat.unpack, if_neg hexp]
    split
    · split <;> rfl
    · rfl

theorem sign?_pack_of_exponent {exponent : BitVec 11} {mantissa : BitVec 52}
    (h : exponent = -1#_ → mantissa = 0#_) :
    sign? (UnpackedFloat.unpack format (packComponents format s exponent mantissa)) = some s := by
  have hnumber : @isNaNBits format (packComponents format s exponent mantissa) = false := by
    simp only [isNaNBits, decide_eq_false_iff_not, not_and, not_not,
      unpackExponent_packComponents, unpackMantissa_packComponents]
    exact h
  rw [sign?_unpack, hnumber, unpackSign_packComponents, Sign.ofBitVec_toBitVec]
  rfl

/-- To be written as a word changes no sign. -/
theorem sign?_unpack_pack (x : UnpackedFloat) :
    sign? (UnpackedFloat.unpack format (UnpackedFloat.pack format x)) = sign? x := by
  cases x with
  | notANumber => exact congrArg sign? unpack_packedNaN
  | infinity s => exact sign?_pack_of_exponent fun _ => rfl
  | zero s => exact sign?_pack_of_exponent nofun
  | finite s m e hm =>
    unfold UnpackedFloat.pack
    dsimp only
    split
    · exact sign?_pack_of_exponent fun _ => rfl
    · next hsmall =>
      split
      · refine sign?_pack_of_exponent fun hones => ?_
        have hnat := congrArg BitVec.toNat hones
        rw [BitVec.toNat_ofNat, Nat.mod_eq_of_lt (by omega)] at hnat
        change _ = 2047 at hnat
        exact absurd hnat (by omega)
      · exact sign?_pack_of_exponent nofun

theorem sign?_roundWithAccuracy (s : Sign) (m : Nat) (e : Int) (accuracy : Accuracy) :
    sign? (roundWithAccuracy format s m e accuracy) = some s := by
  unfold roundWithAccuracy
  dsimp only
  split <;> rfl

theorem sign?_normalize_pos {n : Int} (h : 0 < n) (e : Int) (zero : Sign) :
    sign? (normalize format n e zero) = some .positive := by
  rw [UnpackedFloat.normalize, Int.compare_eq_gt.mpr h]
  exact sign?_roundWithAccuracy ..

theorem sign?_normalize_neg {n : Int} (h : n < 0) (e : Int) (zero : Sign) :
    sign? (normalize format n e zero) = some .negative := by
  rw [UnpackedFloat.normalize, Int.compare_eq_lt.mpr h]
  exact sign?_roundWithAccuracy ..

/-! ## Differences -/

/-- A mantissa of fifty-three bits, with fewer only at the least exponent. Two numbers of this
form are in the order of their exponents. -/
structure Reduced (m : Nat) (e : Int) : Prop where
  below : m < 2 ^ 53
  least : -1074 ≤ e
  full : e = -1074 ∨ 2 ^ 52 ≤ m

theorem reduced_of_unpack {b : BitVec format.numBits} {hm : 0 < m}
    (h : UnpackedFloat.unpack format b = .finite s m e hm) : Reduced m e := by
  have hman : (unpackMantissa b : BitVec 52).toNat < 2 ^ 52 := BitVec.isLt _
  have hbias : (format.exponentBias : Int) = 1023 := rfl
  unfold UnpackedFloat.unpack at h
  dsimp only at h
  split at h
  · split at h <;> cases h
  · next hones =>
    split at h
    · next hzero =>
      split at h
      · cases h
      · cases h
        rw [hzero]
        exact ⟨by omega, by simp [hbias], .inl (by simp [hbias])⟩
    · next hzero =>
      cases h
      have hexp : (unpackExponent b : BitVec 11).toNat ≠ 0 := fun hexp =>
        hzero (BitVec.eq_of_toNat_eq hexp)
      have hword : (1#1 ++ (unpackMantissa b : BitVec 52)).toNat =
          2 ^ 52 + (unpackMantissa b : BitVec 52).toNat := by
        rw [BitVec.toNat_append, ← Nat.shiftLeft_add_eq_or_of_lt hman]
        rfl
      exact ⟨by omega, by simp only [hbias]; omega, .inr (by omega)⟩

theorem shiftLeft_lt_shiftLeft (h₁ : Reduced m₁ e₁) (h₂ : Reduced m₂ e₂)
    (h : (compare e₁ e₂).then (compare m₁ m₂) = .lt) :
    m₁ <<< (e₁ - min e₁ e₂).toNat < m₂ <<< (e₂ - min e₁ e₂).toNat := by
  have hbelow := h₁.below
  have hleast := h₁.least
  rcases Ordering.then_eq_lt.mp h with hlt | ⟨heq, hlt⟩
  · rw [Int.compare_eq_lt] at hlt
    have hfull : 2 ^ 52 ≤ m₂ := h₂.full.resolve_left (by omega)
    rw [min_eq_left hlt.le, sub_self, Int.toNat_zero, Nat.shiftLeft_zero, Nat.shiftLeft_eq]
    calc m₁ < 2 ^ 52 * 2 ^ 1 := by omega
      _ ≤ m₂ * 2 ^ (e₂ - e₁).toNat :=
        Nat.mul_le_mul hfull (Nat.pow_le_pow_right (by decide) (by omega))
  · rw [Int.compare_eq_eq] at heq
    rw [Nat.compare_eq_lt] at hlt
    subst heq
    simpa using hlt

theorem cast_shiftLeft_pos (hm : 0 < m) (k : Nat) : (0 : Int) < ((m <<< k : Nat) : Int) := by
  rw [Nat.shiftLeft_eq]
  positivity

/-- Finite numbers brought to one exponent have mantissas in their order. -/
theorem apply_lt_apply {s₁ s₂ : Sign} {h₁ : 0 < m₁} {h₂ : 0 < m₂} (hr₁ : Reduced m₁ e₁)
    (hr₂ : Reduced m₂ e₂)
    (h : (UnpackedFloat.finite s₁ m₁ e₁ h₁).compare (.finite s₂ m₂ e₂ h₂) = some .lt) :
    s₁.apply (m₁ <<< (e₁ - min e₁ e₂).toNat : Nat) <
      s₂.apply (m₂ <<< (e₂ - min e₁ e₂).toNat : Nat) := by
  have hpos₁ := cast_shiftLeft_pos h₁ (e₁ - min e₁ e₂).toNat
  have hpos₂ := cast_shiftLeft_pos h₂ (e₂ - min e₁ e₂).toNat
  cases s₁ <;> cases s₂ <;> simp only [UnpackedFloat.compare, Option.some.injEq] at h
  case negative.negative =>
    have hswap : (compare e₂ e₁).then (compare m₂ m₁) = .lt := by
      rw [← h, Ordering.swap_then, Int.compare_swap, Nat.compare_swap]
    have hlt := shiftLeft_lt_shiftLeft hr₂ hr₁ hswap
    rw [min_comm] at hlt
    simp only [Sign.apply]
    omega
  case negative.positive =>
    simp only [Sign.apply]
    omega
  case positive.negative => cases h
  case positive.positive =>
    have hlt := shiftLeft_lt_shiftLeft hr₁ hr₂ h
    simp only [Sign.apply]
    omega

/-- What a word is read as. -/
def IsReduced : UnpackedFloat → Prop
  | .finite _ m e _ => Reduced m e
  | _ => True

theorem isReduced_unpack (b : BitVec format.numBits) :
    IsReduced (UnpackedFloat.unpack format b) := by
  cases h : UnpackedFloat.unpack format b with
  | finite s m e hm => exact reduced_of_unpack h
  | _ => trivial

/-- The difference of two numbers has the sign that their order says. -/
theorem sign?_sub_of_lt (hx : IsReduced x) (hy : IsReduced y) (h : x.lt y = true) :
    sign? (UnpackedFloat.sub format y x) = some .positive ∧
      sign? (UnpackedFloat.sub format x y) = some .negative := by
  have h : x.compare y = some .lt := by simpa [UnpackedFloat.lt] using h
  rcases x with s₁ | _ | s₁ | ⟨s₁, m₁, e₁, h₁⟩
  · rcases y with s₂ | _ | s₂ | ⟨s₂, m₂, e₂, h₂⟩ <;> cases s₁ <;> try cases s₂
    all_goals first | exact ⟨rfl, rfl⟩ | cases h
  · cases h
  · rcases y with s₂ | _ | s₂ | ⟨s₂, m₂, e₂, h₂⟩ <;> cases s₁ <;> try cases s₂
    all_goals first | exact ⟨rfl, rfl⟩ | cases h
  · rcases y with s₂ | _ | s₂ | ⟨s₂, m₂, e₂, h₂⟩
    · cases s₂ <;> cases s₁ <;> first | exact ⟨rfl, rfl⟩ | cases h
    · cases s₁ <;> cases h
    · cases s₂ <;> cases s₁ <;> first | exact ⟨rfl, rfl⟩ | cases h
    · have hlt := apply_lt_apply hx hy h
      constructor
      · unfold UnpackedFloat.sub decreaseExponent
        dsimp only
        rw [min_comm]
        exact sign?_normalize_pos (sub_pos.mpr hlt) _ _
      · exact sign?_normalize_neg (sub_neg.mpr hlt) _ _

/-! ## Quotients -/

/-- A quotient by a finite number other than zero has the sign of its operands. -/
theorem sign?_div_finite {s₁ : Sign} (hx : sign? x = some s₁) (hm : 0 < m) :
    sign? (UnpackedFloat.div format x (.finite s m e hm)) = some (s₁ / s) := by
  cases x with
  | notANumber => cases hx
  | infinity s' | zero s' =>
    cases hx
    rfl
  | finite s' m' e' hm' =>
    cases hx
    exact sign?_roundWithAccuracy ..

/-! ## Numbers of at least a power of two

Rounding takes a number to zero only when it is smaller than the least double, and none falls
below a power of two that it has reached. -/

/-- A number of at least `2 ^ t`. -/
def AtLeast (t : Int) : UnpackedFloat → Prop
  | .infinity .positive => True
  | .finite .positive m e _ => Reduced m e ∧ 2 ^ (t - e).toNat ≤ m
  | _ => False

variable {t : Int}

theorem mantissa_shiftRight (extended : ExtendedMantissa) (k : Nat) :
    (extended >>> k).mantissa = extended.mantissa / 2 ^ k := by
  induction k with
  | zero => simp [HShiftRight.hShiftRight, Nat.repeat]
  | succ k ih =>
    have hstep : (extended >>> (k + 1)).mantissa = (extended >>> k).mantissa / 2 := rfl
    rw [hstep, ih, Nat.div_div_eq_div_mul, Nat.pow_succ]

theorem mantissa_ofMantissaAndAccuracy (m : Nat) (accuracy : Accuracy) :
    (ExtendedMantissa.ofMantissaAndAccuracy m accuracy).mantissa = m := by
  rcases accuracy with _ | (_ | _ | _) <;> rfl

theorem le_roundToNearestEven (m : Nat) (accuracy : Accuracy) :
    m ≤ accuracy.roundToNearestEven m := by
  rcases accuracy with _ | (_ | _ | _) <;> simp [Accuracy.roundToNearestEven]

/-- How far a mantissa is shifted so that a word has room for it. -/
def places (m : Nat) (e : Int) : Nat :=
  (format.targetExponent (totalExponent m e) - e).toNat

theorem places_eq (m : Nat) (e : Int) :
    places m e = (max ((m.log2 : Int) + 1 + e - 53) (-1074) - e).toNat := rfl

theorem mantissa_shiftToTargetExponent (m : Nat) (e : Int) (accuracy : Accuracy) :
    (shiftToTargetExponent format m e accuracy).1.mantissa = m / 2 ^ places m e := by
  rw [shiftToTargetExponent, shiftToExponent, mantissa_shiftRight, mantissa_ofMantissaAndAccuracy]
  rfl

theorem exponent_shiftToTargetExponent (m : Nat) (e : Int) (accuracy : Accuracy) :
    (shiftToTargetExponent format m e accuracy).2 = e + places m e := rfl

/-- A mantissa with digits enough is reduced by the shift. -/
theorem reduced_shift (h : e ≤ -1074 ∨ 2 ^ 52 ≤ m) :
    Reduced (m / 2 ^ places m e) (e + places m e) := by
  have hplaces := places_eq m e
  refine ⟨?_, by omega, ?_⟩
  · have hlog : m.log2 + 1 ≤ 53 + places m e := by omega
    rw [Nat.div_lt_iff_lt_mul (Nat.two_pow_pos _), ← Nat.pow_add]
    exact lt_of_lt_of_le Nat.lt_log2_self (Nat.pow_le_pow_right (by decide) hlog)
  · rcases Nat.lt_or_ge m (2 ^ 52) with hsmall | hbig
    · have hlog : m.log2 < 52 ∨ m = 0 := by
        rcases Nat.eq_zero_or_pos m with hzero | hpos
        · exact .inr hzero
        · exact .inl ((Nat.log2_lt hpos.ne').mpr hsmall)
      have hzero : Nat.log2 0 = 0 := by decide
      rcases hlog with hlog | rfl <;> omega
    · have hpos : m ≠ 0 := by omega
      have hlog : 52 ≤ m.log2 := (Nat.le_log2 hpos).mpr hbig
      rcases Nat.lt_or_ge (m.log2 - 52) (places m e) with hlt | hge
      · exact .inl (by omega)
      · refine .inr ((Nat.le_div_iff_mul_le (Nat.two_pow_pos _)).mpr ?_)
        rw [← Nat.pow_add]
        exact (Nat.pow_le_pow_right (by decide) (by omega)).trans (Nat.log2_self_le hpos)

theorem le_shift (ht : -1074 ≤ t) (hm : 2 ^ (t - e).toNat ≤ m) :
    2 ^ (t - (e + places m e)).toNat ≤ m / 2 ^ places m e := by
  have hplaces := places_eq m e
  have hpos : m ≠ 0 := Nat.ne_of_gt (lt_of_lt_of_le (Nat.two_pow_pos _) hm)
  rw [Nat.le_div_iff_mul_le (Nat.two_pow_pos _), ← Nat.pow_add]
  rcases Nat.lt_or_ge m.log2 (places m e) with hlt | hge
  · exact (Nat.pow_le_pow_right (by decide) (by omega)).trans hm
  · rcases Int.lt_or_le (t - (e + places m e)) 0 with hneg | hnonneg
    · rw [Int.toNat_of_nonpos hneg.le, Nat.zero_add]
      exact (Nat.pow_le_pow_right (by decide) hge).trans (Nat.log2_self_le hpos)
    · exact (Nat.pow_le_pow_right (by decide) (by omega)).trans hm

theorem atLeast_roundWithAccuracy (ht : -1074 ≤ t) (accuracy : Accuracy)
    (hm : 2 ^ (t - e).toNat ≤ m) (hfull : e ≤ -1074 ∨ 2 ^ 52 ≤ m) :
    AtLeast t (roundWithAccuracy format .positive m e accuracy) := by
  have hreduced := reduced_shift hfull
  have hle := le_shift ht hm
  unfold roundWithAccuracy
  dsimp only
  set rounded := (shiftToTargetExponent format m e accuracy).1.roundedMantissa with hrounded
  have hround : m / 2 ^ places m e ≤ rounded := by
    rw [hrounded, ExtendedMantissa.roundedMantissa, mantissa_shiftToTargetExponent]
    exact le_roundToNearestEven _ _
  rw [exponent_shiftToTargetExponent]
  -- what rounding up has added may need one more place
  have hfull' := hreduced.full.imp le_of_eq fun h => h.trans hround
  have hle' := le_shift ht (hle.trans hround)
  rw [dif_neg]
  · rw [AtLeast, mantissa_shiftToTargetExponent, exponent_shiftToTargetExponent]
    exact ⟨reduced_shift hfull', hle'⟩
  · rw [mantissa_shiftToTargetExponent]
    exact Nat.ne_of_gt (lt_of_lt_of_le (Nat.two_pow_pos _) hle')

theorem unpack_packedInfinity : UnpackedFloat.unpack format (packedInfinity format s) = .infinity s := by
  simp [UnpackedFloat.unpack, packedInfinity]

theorem unpack_normal (hm : 2 ^ 52 ≤ m) (hlt : m < 2 ^ 53) {biased : Nat} (hpos : 0 < biased)
    (hbig : biased < 2047) :
    UnpackedFloat.unpack format (packComponents format s (.ofNat 11 biased) (.ofNat 52 m)) =
      .finite s m (biased - 1075) (by omega) := by
  have hexp : (BitVec.ofNat 11 biased).toNat = biased := by
    rw [BitVec.toNat_ofNat, Nat.mod_eq_of_lt (by omega)]
  have hones : BitVec.ofNat 11 biased ≠ -1#11 := fun h => by
    have hnat := hexp.symm.trans (congrArg BitVec.toNat h)
    change _ = 2047 at hnat
    omega
  have hzero : BitVec.ofNat 11 biased ≠ 0#11 := fun h => by
    have hnat := hexp.symm.trans (congrArg BitVec.toNat h)
    change _ = 0 at hnat
    omega
  have hword : (1#1 ++ BitVec.ofNat 52 m).toNat = m := by
    rw [BitVec.toNat_append, ← Nat.shiftLeft_add_eq_or_of_lt (BitVec.isLt _), BitVec.toNat_ofNat]
    change 2 ^ 52 + m % 2 ^ 52 = m
    omega
  unfold UnpackedFloat.unpack
  simp only [unpackExponent_packComponents, unpackMantissa_packComponents,
    unpackSign_packComponents, Sign.ofBitVec_toBitVec]
  rw [if_neg hones, if_neg hzero]
  congr 1
  rw [hexp]
  rfl

theorem unpack_subnormal (hm : 0 < m) (hlt : m < 2 ^ 52) :
    UnpackedFloat.unpack format (packComponents format s 0#11 (.ofNat 52 m)) =
      .finite s m (-1074) hm := by
  have hman : (BitVec.ofNat 52 m).toNat = m := by
    rw [BitVec.toNat_ofNat, Nat.mod_eq_of_lt hlt]
  have hzero : BitVec.ofNat 52 m ≠ 0#52 := fun h => by
    have hnat := hman.symm.trans (congrArg BitVec.toNat h)
    change _ = 0 at hnat
    omega
  have hones : 0#11 ≠ -1#11 := by decide
  unfold UnpackedFloat.unpack
  simp only [unpackExponent_packComponents, unpackMantissa_packComponents,
    unpackSign_packComponents, Sign.ofBitVec_toBitVec]
  rw [if_neg hones, if_pos trivial, dif_neg hzero]
  congr 1

/-- A reduced number is read back, unless it was too large for a word. -/
theorem unpack_pack_finite (s : Sign) (hm : 0 < m) (hr : Reduced m e) :
    UnpackedFloat.unpack format (UnpackedFloat.pack format (.finite s m e hm)) = .infinity s ∨
      UnpackedFloat.unpack format (UnpackedFloat.pack format (.finite s m e hm)) =
        .finite s m e hm := by
  have hleast := hr.least
  have hbias : (format.exponentBias : Int) = 1023 := rfl
  unfold UnpackedFloat.pack
  dsimp only
  split
  · exact .inl unpack_packedInfinity
  · next hbig =>
    right
    split
    · next hfull =>
      have hm52 : 2 ^ 52 ≤ m := (Nat.le_log2 hm.ne').mp (by
        change m.log2 + 1 = 53 at hfull
        omega)
      refine (unpack_normal hm52 hr.below (by omega) (by omega)).trans ?_
      congr 1
      omega
    · next hshort =>
      have hlog : m.log2 < 53 := (Nat.log2_lt hm.ne').mpr hr.below
      have hsmall : m < 2 ^ 52 := (Nat.log2_lt hm.ne').mp (by
        change ¬ m.log2 + 1 = 53 at hshort
        omega)
      have he : e = -1074 := hr.full.resolve_right (by omega)
      subst he
      exact unpack_subnormal hm hsmall

theorem atLeast_unpack_pack (h : AtLeast t x) :
    AtLeast t (UnpackedFloat.unpack format (UnpackedFloat.pack format x)) := by
  rcases x with (_ | _) | _ | _ | ⟨_ | _, m, e, hm⟩
  case infinity.positive => exact unpack_packedInfinity (s := .positive) ▸ h
  case finite.positive =>
    rcases unpack_pack_finite .positive hm h.1 with heq | heq <;> rw [heq]
    · trivial
    · exact h
  all_goals exact h.elim

theorem atLeast_round (hm : 0 < m) : AtLeast 0 (UnpackedFloat.round format .positive m 0) := by
  unfold UnpackedFloat.round decreaseExponent
  dsimp only
  have htarget : format.targetExponent (totalExponent m 0) =
    max ((m.log2 : Int) + 1 + 0 - 53) (-1074) := rfl
  rw [htarget, Nat.shiftLeft_eq]
  generalize hk : (0 - max ((m.log2 : Int) + 1 + 0 - 53) (-1074)).toNat = k
  apply atLeast_roundWithAccuracy (by decide)
  · calc 2 ^ (0 - (0 - (k : Int))).toNat ≤ 2 ^ k := Nat.pow_le_pow_right (by decide) (by omega)
      _ ≤ m * 2 ^ k := Nat.le_mul_of_pos_left _ hm
  · right
    calc 2 ^ 52 ≤ 2 ^ (m.log2 + k) := Nat.pow_le_pow_right (by decide) (by omega)
      _ = 2 ^ m.log2 * 2 ^ k := Nat.pow_add ..
      _ ≤ m * 2 ^ k := Nat.mul_le_mul_right _ (Nat.log2_self_le hm.ne')

theorem atLeast_mul_finite (ht : -1074 ≤ t) {h₁ : 0 < m₁} {h₂ : 0 < m₂}
    (h : 2 ^ (t - (e₁ + e₂)).toNat ≤ m₁ * m₂) (hfull : 2 ^ 52 ≤ m₁ * m₂) :
    AtLeast t (UnpackedFloat.mul format (.finite .positive m₁ e₁ h₁)
      (.finite .positive m₂ e₂ h₂)) :=
  atLeast_roundWithAccuracy ht .exact h (.inr hfull)

/-- The product with a one that is written with as many digits as a word has. -/
theorem atLeast_mul_one (ht : -1074 ≤ t) {h : 0 < 2 ^ 52} (hx : AtLeast t x) :
    AtLeast t (UnpackedFloat.mul format x (.finite .positive (2 ^ 52) (-52) h)) := by
  rcases x with (_ | _) | _ | _ | ⟨_ | _, m, e, hm⟩
  case infinity.positive => trivial
  case finite.positive =>
    apply atLeast_mul_finite ht
    · calc 2 ^ (t - (e + -52)).toNat ≤ 2 ^ ((t - e).toNat + 52) :=
          Nat.pow_le_pow_right (by decide) (by omega)
        _ = 2 ^ (t - e).toNat * 2 ^ 52 := Nat.pow_add ..
        _ ≤ m * 2 ^ 52 := Nat.mul_le_mul_right _ hx.2
    · exact Nat.le_mul_of_pos_left _ hm
  all_goals exact hx.elim

theorem ofScientific_eq_mul (spec : Format) {n : Nat} (hn : 0 < n) : ∃ k h₁ h₂,
    k = spec.mantissaBits ∧ UnpackedFloat.ofScientific spec n 0 =
      UnpackedFloat.mul spec (.finite .positive (n <<< k) (-k) h₁) (.finite .positive 1 0 h₂) := by
  have hpow : (0 : Int) < 2 ^ spec.exponentBits := by positivity
  have hshift : 0 < n <<< spec.mantissaBits := Nat.shiftLeft_pos_iff.mpr hn
  refine ⟨_, hshift, Nat.one_pos, rfl, ?_⟩
  unfold UnpackedFloat.ofScientific
  rw [dif_neg hn.ne', if_neg (not_lt.mpr hpow.le), if_neg (by omega), if_pos le_rfl]
  rfl

theorem atLeast_ofScientific {n : Nat} (hn : 0 < n) :
    AtLeast 0 (UnpackedFloat.ofScientific format n 0) := by
  obtain ⟨k, h₁, h₂, hk, heq⟩ := ofScientific_eq_mul format hn
  have hk : k = 53 := hk
  have hshift : 2 ^ k ≤ n <<< k := by
    rw [Nat.shiftLeft_eq]
    exact Nat.le_mul_of_pos_left _ hn
  rw [heq]
  apply atLeast_mul_finite (by decide)
  · rw [Nat.mul_one]
    exact (Nat.pow_le_pow_right (by decide) (by omega)).trans hshift
  · rw [Nat.mul_one]
    exact (Nat.pow_le_pow_right (by decide) (by omega)).trans hshift

/-- A positive integer is at least one as a double. -/
theorem atLeast_ofNat {n : Nat} (hn : 0 < n) : AtLeast 0 (Float.ofNat n).toModel.unpack := by
  unfold Float.ofNat OfScientific.ofScientific instOfScientificFloat Float.ofScientific
  dsimp only
  split
  · next hsmall =>
    apply atLeast_unpack_pack
    have hone : (Float.exactlyRepresentablePowersOfTen[0]).toModel.unpack =
      .finite .positive (2 ^ 52) (-52) (by decide) := rfl
    have hword : n.toUInt64.toNat = n := by
      rw [Nat.toUInt64_eq, UInt64.toNat_ofNat']
      omega
    rw [hone]
    apply atLeast_mul_one (by decide)
    apply atLeast_unpack_pack
    unfold UnpackedFloat.ofUInt64 UnpackedFloat.ofNat UnpackedFloat.ofInt UnpackedFloat.normalize
    rw [hword, Int.compare_eq_gt.mpr (by omega)]
    exact atLeast_round hn
  · exact atLeast_unpack_pack (atLeast_ofScientific hn)

/-! ## Doubles and zero -/

theorem lt_iff {x y : Float} : x < y ↔ x.toModel.unpack.lt y.toModel.unpack = true := by
  change decide (x.toModel < y.toModel) = true ↔ _
  rw [decide_eq_true_iff]
  rfl

theorem le_iff {x y : Float} : x ≤ y ↔ x.toModel.unpack.le y.toModel.unpack = true := by
  change decide (x.toModel ≤ y.toModel) = true ↔ _
  rw [decide_eq_true_iff]
  rfl

theorem unpack_zero : (0.0 : Float).toModel.unpack = .zero .positive := rfl

theorem beq_zero_iff {x : Float} : (x == 0.0) = true ↔ ∃ s, x.toModel.unpack = .zero s := by
  change x.toModel.unpack.beq (0.0 : Float).toModel.unpack = true ↔ _
  rw [unpack_zero]
  constructor
  · intro h
    generalize x.toModel.unpack = u at h
    rcases u with s | _ | s | ⟨s, m, e, hm⟩
    · cases s <;> cases h
    · cases h
    · exact ⟨s, rfl⟩
    · cases s <;> cases h
  · rintro ⟨s, hs⟩
    rw [hs]
    rfl

theorem not_le_zero {x : Float} (h : AtLeast t x.toModel.unpack) : ¬ x ≤ 0.0 := by
  rw [le_iff, unpack_zero]
  generalize x.toModel.unpack = u at h
  rcases u with (_ | _) | _ | _ | ⟨_ | _, m, e, hm⟩
  case infinity.positive | finite.positive => exact Bool.false_ne_true
  all_goals exact h.elim

theorem isNaN_of_atLeast {x : Float} (h : AtLeast t x.toModel.unpack) : x.isNaN = false := by
  change x.toModel.unpack.isNaN = false
  cases hx : x.toModel.unpack with
  | notANumber =>
    rw [hx] at h
    exact h.elim
  | _ => rfl

/-- A difference of two doubles in their order. -/
theorem sign?_sub {x y : Float} (h : x < y) :
    sign? (y - x).toModel.unpack = some .positive ∧
      sign? (x - y).toModel.unpack = some .negative := by
  have hsub := sign?_sub_of_lt (isReduced_unpack _) (isReduced_unpack _) (lt_iff.mp h)
  exact ⟨(sign?_unpack_pack _).trans hsub.1, (sign?_unpack_pack _).trans hsub.2⟩

/-- A finite double is zero, or it is on one side of zero. -/
theorem unpack_of_isFinite {x : Float} (hx : x.isFinite = true) (hz : (x == 0.0) = false) :
    ∃ m e hm, x.toModel.unpack = .finite (if 0.0 < x then .positive else .negative) m e hm := by
  simp only [lt_iff, unpack_zero]
  change x.toModel.unpack.isFinite = true at hx
  have hz : ¬ ∃ s, x.toModel.unpack = .zero s :=
    fun h => Bool.false_ne_true (hz.symm.trans (beq_zero_iff.mpr h))
  generalize x.toModel.unpack = u at hx hz
  rcases u with s | _ | s | ⟨_ | _, m, e, hm⟩
  · cases hx
  · cases hx
  · exact absurd ⟨s, rfl⟩ hz
  · exact ⟨m, e, hm, rfl⟩
  · exact ⟨m, e, hm, rfl⟩

/-- The quotient of a distance by a step in its direction. -/
theorem sign?_div {x y : Float} (hy : y.isFinite = true) (hz : (y == 0.0) = false)
    (hx : sign? x.toModel.unpack = some (if 0.0 < y then .positive else .negative)) :
    sign? (x / y).toModel.unpack = some .positive := by
  obtain ⟨m, e, hm, hunpack⟩ := unpack_of_isFinite hy hz
  change sign? (UnpackedFloat.unpack format (UnpackedFloat.pack format
    (UnpackedFloat.div format x.toModel.unpack y.toModel.unpack))) = _
  rw [sign?_unpack_pack, hunpack, sign?_div_finite hx hm]
  split <;> rfl

/-- A double on the positive side is zero, or it is no less than the least one above zero. -/
theorem atLeast_of_sign? {x : Float} (hs : sign? x.toModel.unpack = some .positive)
    (hz : (x == 0.0) = false) : AtLeast (-1074) x.toModel.unpack := by
  have hr : IsReduced x.toModel.unpack := isReduced_unpack _
  have hz : ¬ ∃ s, x.toModel.unpack = .zero s :=
    fun h => Bool.false_ne_true (hz.symm.trans (beq_zero_iff.mpr h))
  generalize x.toModel.unpack = u at hs hz hr
  rcases u with s | _ | s | ⟨s, m, e, hm⟩
  · cases hs
    trivial
  · cases hs
  · exact absurd ⟨s, rfl⟩ hz
  · cases hs
    have hleast := hr.least
    refine ⟨hr, ?_⟩
    rw [Int.toNat_of_nonpos (by omega)]
    exact hm

end Double

end FiberMachine
