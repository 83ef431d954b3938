import FiberMachine.Proofs.Object.Doubles

/-!
# The words and the scalars

Nil, the two truth values, the doubles that are not reserved and the handles are the scalars.
Each of them has a word of its own, and every word is the word of one of them: the words are the
scalars under another name. What a word is can be read from three masks, which is how the layout
is written down; here the masks are tied to the comparisons that read a word.
-/

namespace FiberMachine

/-! ## Masks -/

namespace Value

/-- The bits of a handle word that are not its payload lie above the low fifty. -/
theorem toNat_handleBase : handleBase.toNat = (2 ^ 14 - 1) <<< 50 := rfl

theorem toNat_eq_or {w : UInt64} (h : handleBase ≤ w) :
    w.toNat = handleBase.toNat ||| w.toNat % 2 ^ 50 := by
  have hlt := w.toNat_lt
  rw [UInt64.le_iff_toNat_le] at h
  rw [toNat_handleBase, ← Nat.shiftLeft_add_eq_or_of_lt (Nat.mod_lt _ (by decide))]
  rw [toNat_handleBase] at h
  omega

theorem and_handleBase_eq_iff (w : UInt64) : w &&& handleBase = handleBase ↔ handleBase ≤ w := by
  constructor
  · intro h
    rw [UInt64.le_iff_toNat_le, ← congrArg UInt64.toNat h, UInt64.toNat_and]
    exact Nat.and_le_left
  · intro h
    apply UInt64.toNat.inj
    rw [UInt64.toNat_and, toNat_eq_or h]
    apply Nat.eq_of_testBit_eq
    intro i
    rw [Nat.testBit_and, Nat.testBit_or]
    cases handleBase.toNat.testBit i <;> simp

theorem or_one_eq_iff (w : UInt64) : w ||| 1 = trueBits ↔ w = falseBits ∨ w = trueBits := by
  constructor
  · intro h
    have hword : w.toNat ||| 1 = trueBits.toNat := by
      rw [← h, UInt64.toNat_or]
      rfl
    have hhalf : w.toNat / 2 = trueBits.toNat / 2 := by
      rw [← hword, Nat.or_div_two, show 1 / 2 = 0 from rfl, Nat.or_zero]
    have hfalse : falseBits.toNat = 0x7ffc000000000002 := rfl
    have htrue : trueBits.toNat = 0x7ffc000000000003 := rfl
    rw [← UInt64.toNat_inj, ← UInt64.toNat_inj]
    omega
  · rintro (rfl | rfl) <;> decide

theorem isReserved_eq_masks (w : UInt64) :
    isReserved w = (w == nilBits || w ||| 1 == trueBits || w &&& handleBase == handleBase) := by
  rw [Bool.eq_iff_iff]
  simp [isReserved, and_handleBase_eq_iff, or_one_eq_iff, or_assoc]

theorem isBool_eq_mask (v : Value) : v.isBool = (v.bits ||| 1 == trueBits) := by
  rw [Bool.eq_iff_iff]
  simp [isBool, or_one_eq_iff]

theorem isHandle_eq_mask (v : Value) : v.isHandle = (v.bits &&& handleBase == handleBase) := by
  rw [Bool.eq_iff_iff]
  simp [isHandle, and_handleBase_eq_iff]

end Value

theorem Handle.toNat_payload_lt (r : Handle) : r.payload.toNat < 2 ^ 50 := by
  have hi := r.index.toNat_lt
  have hg := r.generation.isLt
  simp only [generationCount] at hg
  rw [r.payload_toNat]
  omega

theorem Handle.payload_eq_or (r : Handle) :
    r.payload = r.index.toUInt64 ||| UInt64.ofNat r.generation.val <<< 32 := by
  have hi := r.index.toNat_lt
  have hg := r.generation.isLt
  simp only [generationCount] at hg
  apply UInt64.toNat.inj
  rw [r.payload_toNat, UInt64.toNat_or, UInt64.toNat_shiftLeft, UInt64.toNat_ofNat',
    UInt32.toNat_toUInt64, Nat.mod_eq_of_lt (by omega : r.generation.val < 2 ^ 64),
    show (32 : UInt64).toNat % 64 = 32 from rfl, Nat.mod_eq_of_lt (by omega), Nat.or_comm,
    ← Nat.shiftLeft_add_eq_or_of_lt hi]
  omega

theorem Value.bits_ofHandle_eq_or (r : Handle) :
    (ofHandle r).bits = handleBase ||| r.payload := by
  have hp := r.toNat_payload_lt
  apply UInt64.toNat.inj
  rw [UInt64.toNat_or, toNat_handleBase, ← Nat.shiftLeft_add_eq_or_of_lt hp]
  simp only [ofHandle]
  rw [UInt64.toNat_add, toNat_handleBase]
  omega

/-! ## Scalars -/

/-- What a word stands for, with the doubles as the words that are free for them. -/
inductive Scalar where
  | nil
  | bool (b : Bool)
  | double (w : UInt64) (free : Value.isReserved w = false)
  | handle (r : Handle)
deriving DecidableEq

namespace Scalar

def word : Scalar → Value
  | .nil => .nil
  | .bool b => .ofBool b
  | .double w _ => .ofDouble w
  | .handle r => .ofHandle r

def read (v : Value) : Scalar :=
  if v.isNil then .nil
  else if v.isBool then .bool (v.bits == Value.trueBits)
  else if hv : Value.isReserved v.bits = true then .handle (.ofPayload (v.bits - Value.handleBase))
  else .double v.bits (Bool.eq_false_iff.mpr hv)

end Scalar

namespace Value

theorem ofDouble_of_free {w : UInt64} (h : isReserved w = false) : ofDouble w = ⟨w⟩ := by
  simp [ofDouble, h]

theorem isReserved_quietNaN : isReserved quietNaN = false := by decide

theorem isNumber_ofDouble (w : UInt64) : (ofDouble w).isNumber = true := by
  cases h : isReserved w with
  | false => simp [ofDouble_of_free h, isNumber, h]
  | true => simp [ofDouble, h, isNumber, isReserved_quietNaN]

theorem toDouble?_of_free {w : UInt64} (h : isReserved w = false) :
    (ofDouble w).toDouble? = some w := by
  rw [toDouble?, isNumber_ofDouble, if_pos rfl, ofDouble_of_free h]

theorem toDouble?_of_reserved {w : UInt64} (h : isReserved w = true) :
    (ofDouble w).toDouble? = some quietNaN := by
  rw [toDouble?, isNumber_ofDouble, if_pos rfl, ofDouble, if_pos h]

/-- A handle's word is none of the three fixed ones, so it is reserved for being a handle's. -/
theorem isReserved_eq (v : Value) :
    isReserved v.bits = (v.isNil || v.isBool || v.isHandle) := by
  simp [isReserved, isNil, isBool, isHandle, Bool.or_assoc]

theorem kinds_disjoint (v : Value) :
    (v.isNil = true → v.isBool = false ∧ v.isHandle = false) ∧
      (v.isBool = true → v.isHandle = false) := by
  obtain ⟨w⟩ := v
  constructor
  · intro h
    simp only [isNil, beq_iff_eq] at h
    subst h
    decide
  · intro h
    simp only [isBool, Bool.or_eq_true, beq_iff_eq] at h
    rcases h with rfl | rfl <;> decide

/-- The tests for a kind that say yes to a word. -/
def kinds (v : Value) : Nat := [v.isNil, v.isBool, v.isNumber, v.isHandle].count true

theorem kinds_eq_one (v : Value) : v.kinds = 1 := by
  obtain ⟨hnil, hbool⟩ := kinds_disjoint v
  have hnum : v.isNumber = !(v.isNil || v.isBool || v.isHandle) := by
    rw [isNumber, isReserved_eq]
  cases h₁ : v.isNil
  · cases h₂ : v.isBool
    · cases h₃ : v.isHandle <;> simp [kinds, hnum, h₁, h₂, h₃]
    · simp [kinds, hnum, h₁, h₂, hbool h₂]
  · simp [kinds, hnum, h₁, hnil h₁]

end Value

namespace Scalar

open Value

theorem word_read (v : Value) : (read v).word = v := by
  obtain ⟨w⟩ := v
  unfold read
  split
  · next h =>
    simp only [isNil, beq_iff_eq] at h
    simp [word, Value.nil, h]
  split
  · next h =>
    simp only [isBool, Bool.or_eq_true, beq_iff_eq] at h
    rcases h with rfl | rfl <;> decide
  split
  · next hnil hbool h =>
    have hhandle : isHandle ⟨w⟩ = true := by
      simpa [isReserved_eq, Bool.eq_false_iff.mpr hnil, Bool.eq_false_iff.mpr hbool] using
        (isReserved_eq ⟨w⟩).symm.trans h
    exact ofHandle_of_toHandle? (by simp [toHandle?, hhandle])
  · next h => exact ofDouble_of_free (Bool.eq_false_iff.mpr h)

theorem read_word (s : Scalar) : read s.word = s := by
  cases s with
  | nil => rfl
  | bool b => cases b <;> rfl
  | double w free =>
    have hkinds := free
    rw [isReserved_eq ⟨w⟩, Bool.or_eq_false_iff, Bool.or_eq_false_iff] at hkinds
    simp [word, ofDouble_of_free free, read, hkinds.1.1, hkinds.1.2, free]
  | handle r =>
    have hbits : (ofHandle r).bits - handleBase = r.payload := by
      rw [ofHandle, UInt64.add_comm, UInt64.add_sub_cancel]
    have hres : isReserved (ofHandle r).bits = true := by
      simp [isReserved_eq, isHandle_ofHandle]
    simp [word, read, isNil_ofHandle, isBool_ofHandle, hres, hbits, Handle.ofPayload_payload]

theorem word_injective : Function.Injective word :=
  Function.LeftInverse.injective read_word

end Scalar

/-! ## What is not a number -/

namespace Double

open Float.Model UnpackedFloat

theorem isNaNBits_of_isReserved {w : UInt64} (h : Value.isReserved w = true) :
    @isNaNBits format w.toBitVec = true := by
  have hexp := toNat_unpackExponent w
  have hman := toNat_unpackMantissa w
  -- eleven bits of the exponent, and the first bit of the mantissa
  have hword : w.toNat / 2 ^ 51 % 2 ^ 12 = 2 ^ 12 - 1 := by
    simp only [Value.isReserved, Bool.or_eq_true, beq_iff_eq, decide_eq_true_eq] at h
    rcases h with ((rfl | rfl) | rfl) | hle
    · decide
    · decide
    · decide
    · have hlt := w.toNat_lt
      have hbase : Value.handleBase.toNat = 0xfffc000000000000 := rfl
      rw [UInt64.le_iff_toNat_le] at hle
      omega
  simp only [isNaNBits, decide_eq_true_eq]
  constructor
  · apply BitVec.eq_of_toNat_eq
    rw [hexp]
    change _ = 2047
    omega
  · intro hzero
    rw [hzero] at hman
    change 0 = _ at hman
    omega

theorem ofBits_of_isReserved {w : UInt64} (h : Value.isReserved w = true) :
    (Float.ofBits w).isNaN = true := by
  have hbits := isNaNBits_of_isReserved h
  simp only [isNaNBits, decide_eq_true_eq] at hbits
  rw [Float.isNaN_eq_decide_eq_nan, decide_eq_true_eq, ← Float.toBits_inj, ← UInt64.toBitVec_inj]
  change (UnpackedFloat.unpack format w.toBitVec).pack format = _
  rw [UnpackedFloat.unpack, if_pos hbits.1, if_neg hbits.2]
  rfl

end Double

/-! ## Boxing -/

/-- What the layout of words promises. The words are in one-to-one correspondence with the
scalars, the kind of a word is one of four, and a scalar that has been stored is read back: a
double to its last bit unless its word is taken, and then it was no number to begin with. -/
structure BoxingGuarantees : Prop where
  one_kind : ∀ v : Value, v.kinds = 1
  number : ∀ w : UInt64, (Value.ofDouble w).isNumber = true
  exact : ∀ w : UInt64, Value.isReserved w = false → (Value.ofDouble w).toDouble? = some w
  canonical : ∀ w : UInt64, Value.isReserved w = true →
    (Float.ofBits w).isNaN = true ∧
      @Float.Model.UnpackedFloat.isNaNBits Double.format w.toBitVec = true ∧
      (Value.ofDouble w).toDouble? = some Value.quietNaN
  handle : ∀ r : Handle, (Value.ofHandle r).toHandle? = some r
  bool : ∀ b : Bool, (Value.ofBool b).toBool? = some b
  distinct : Function.Injective Scalar.word
  covered : Function.Surjective Scalar.word
  masks : ∀ v : Value,
    Value.isReserved v.bits = (v.bits == Value.nilBits || v.bits ||| 1 == Value.trueBits ||
        v.bits &&& Value.handleBase == Value.handleBase) ∧
      v.isBool = (v.bits ||| 1 == Value.trueBits) ∧
      v.isHandle = (v.bits &&& Value.handleBase == Value.handleBase)
  payload : ∀ r : Handle, (Value.ofHandle r).bits =
    Value.handleBase ||| (r.index.toUInt64 ||| UInt64.ofNat r.generation.val <<< 32)

theorem boxingGuarantees : BoxingGuarantees where
  one_kind := Value.kinds_eq_one
  number := Value.isNumber_ofDouble
  exact := fun _ => Value.toDouble?_of_free
  canonical := fun _ h =>
    ⟨Double.ofBits_of_isReserved h, Double.isNaNBits_of_isReserved h, Value.toDouble?_of_reserved h⟩
  handle := Value.toHandle?_ofHandle
  bool := Value.toBool?_ofBool
  distinct := Scalar.word_injective
  covered := fun v => ⟨.read v, Scalar.word_read v⟩
  masks := fun v =>
    ⟨Value.isReserved_eq_masks v.bits, Value.isBool_eq_mask v, Value.isHandle_eq_mask v⟩
  payload := fun r => by rw [Value.bits_ofHandle_eq_or, r.payload_eq_or]

end FiberMachine
