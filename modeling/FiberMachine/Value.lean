/-!
# Tagged words

A value is one 64-bit word. The words from `Value.handleBase` upward carry a
heap handle in their low fifty bits, three quiet-NaN patterns stand for nil and
the two truth values, and every other word is the encoding of a double. The
four classes are disjoint and cover all words, so a value is read back by
comparing its word with a few constants.
-/

namespace FiberMachine

/-- The number of generations a heap slot goes through before it starts again. -/
def generationCount : Nat := 0x40000

abbrev Generation := Fin generationCount

namespace Generation

def zero : Generation := ⟨0, by decide⟩

/-- The generation after the last one is the first one again. -/
def next (g : Generation) : Generation :=
  ⟨(g.val + 1) % generationCount, Nat.mod_lt _ (by decide)⟩

end Generation

/-- A handle names a heap slot in one of its generations. -/
structure Handle where
  index : UInt32
  generation : Generation
deriving DecidableEq, Repr

namespace Handle

def payload (h : Handle) : UInt64 :=
  h.index.toUInt64 + UInt64.ofNat h.generation.val * 0x100000000

def ofPayload (p : UInt64) : Handle :=
  ⟨p.toUInt32, ⟨(p.toNat / 0x100000000) % generationCount, Nat.mod_lt _ (by decide)⟩⟩

theorem payload_toNat (h : Handle) :
    h.payload.toNat = h.index.toNat + h.generation.val * 0x100000000 := by
  have hi := h.index.toNat_lt
  have hg := h.generation.isLt
  simp only [generationCount] at hg
  simp only [payload, UInt64.toNat_add, UInt64.toNat_mul, UInt32.toNat_toUInt64,
    UInt64.toNat_ofNat']
  have h1 : (0x100000000 : UInt64).toNat = 0x100000000 := by decide
  rw [h1]
  omega

theorem ofPayload_payload (h : Handle) : ofPayload h.payload = h := by
  have hi := h.index.toNat_lt
  have hg := h.generation.isLt
  simp only [generationCount] at hg
  have hp := h.payload_toNat
  obtain ⟨i, g⟩ := h
  simp only [ofPayload, Handle.mk.injEq]
  refine ⟨?_, ?_⟩
  · apply UInt32.toNat.inj
    rw [UInt64.toNat_toUInt32, hp]
    simp only at hi ⊢
    omega
  · apply Fin.ext
    simp only [hp, generationCount]
    simp only at hi hg
    omega

end Handle

structure Value where
  bits : UInt64
deriving DecidableEq, Repr

namespace Value

def nilBits : UInt64 := 0x7ffc000000000001
def falseBits : UInt64 := 0x7ffc000000000002
def trueBits : UInt64 := 0x7ffc000000000003
def handleBase : UInt64 := 0xfffc000000000000
def quietNaN : UInt64 := 0x7ff8000000000000

def nil : Value := ⟨nilBits⟩

def ofBool (b : Bool) : Value := ⟨if b then trueBits else falseBits⟩

def ofHandle (h : Handle) : Value := ⟨handleBase + h.payload⟩

/-- The words that do not encode a double. -/
def isReserved (w : UInt64) : Bool :=
  w == nilBits || w == falseBits || w == trueBits || handleBase ≤ w

/-- A double whose encoding is reserved is a NaN, and is stored as the standard
quiet one. -/
def ofDouble (w : UInt64) : Value :=
  if isReserved w then ⟨quietNaN⟩ else ⟨w⟩

/-- Every result that is not a number is stored as the same word: arithmetic leaves open which of
the many such doubles an operation gives. -/
def ofFloat (x : Float) : Value := ofDouble x.toBits

def isNil (v : Value) : Bool := v.bits == nilBits

def isBool (v : Value) : Bool := v.bits == falseBits || v.bits == trueBits

def isHandle (v : Value) : Bool := handleBase ≤ v.bits

def isNumber (v : Value) : Bool := !isReserved v.bits

def toBool? (v : Value) : Option Bool :=
  if v.isBool then some (v.bits == trueBits) else none

def toHandle? (v : Value) : Option Handle :=
  if v.isHandle then some (.ofPayload (v.bits - handleBase)) else none

theorem toHandle?_ofHandle (r : Handle) : (ofHandle r).toHandle? = some r := by
  have hr : r.payload.toNat < 2 ^ 50 := by
    have hi := r.index.toNat_lt
    have hg := r.generation.isLt
    simp only [generationCount] at hg
    rw [r.payload_toNat]
    omega
  have hbase : handleBase.toNat = 2 ^ 64 - 2 ^ 50 := by decide
  have hle : handleBase ≤ handleBase + r.payload := by
    rw [UInt64.le_iff_toNat_le, UInt64.toNat_add]
    omega
  have hsub : handleBase + r.payload - handleBase = r.payload := by
    rw [UInt64.add_comm, UInt64.add_sub_cancel]
  simp [toHandle?, isHandle, ofHandle, hle, hsub, Handle.ofPayload_payload]

theorem ofHandle_of_toHandle? {v : Value} {r : Handle} (h : v.toHandle? = some r) :
    ofHandle r = v := by
  obtain ⟨bits⟩ := v
  simp only [toHandle?, isHandle, decide_eq_true_eq] at h
  split at h
  · rename_i hle
    cases h
    have hbase : handleBase.toNat = 2 ^ 64 - 2 ^ 50 := by decide
    have hlt := bits.toNat_lt
    have hp := UInt64.toNat_sub_of_le _ _ hle
    rw [UInt64.le_iff_toNat_le] at hle
    simp only [ofHandle, Value.mk.injEq]
    apply UInt64.toNat.inj
    rw [UInt64.toNat_add, Handle.payload_toNat, Handle.ofPayload]
    simp only [generationCount, UInt64.toNat_toUInt32]
    omega
  · cases h

def toDouble? (v : Value) : Option UInt64 :=
  if v.isNumber then some v.bits else none

def toFloat? (v : Value) : Option Float := v.toDouble?.map Float.ofBits

/-- Nil and false are the only values that count as false. -/
def isFalsey (v : Value) : Bool := v.isNil || v.bits == falseBits

/-- What kind of scalar a word is; all heap objects are one kind. -/
def scalarKind (v : Value) : String :=
  if v.isNil then "nil"
  else if v.isBool then "bool"
  else if v.isHandle then "object"
  else "number"

/-! ## Values that hold no handle, and values that do -/

theorem toHandle?_of_isHandle {v : Value} (h : v.isHandle = false) : v.toHandle? = none := by
  simp [toHandle?, h]

theorem toHandle?_ofDouble (w : UInt64) : (ofDouble w).toHandle? = none := by
  apply toHandle?_of_isHandle
  simp only [ofDouble]
  split
  · decide
  · rename_i h
    simp only [isReserved, Bool.or_eq_true, not_or] at h
    simpa [isHandle] using h.2

theorem toHandle?_ofFloat (x : Float) : (ofFloat x).toHandle? = none := toHandle?_ofDouble _

theorem toHandle?_ofBool (b : Bool) : (ofBool b).toHandle? = none := by
  cases b <;> decide

theorem toHandle?_nil : nil.toHandle? = none := by decide

theorem isHandle_ofHandle (r : Handle) : (ofHandle r).isHandle = true := by
  have h := toHandle?_ofHandle r
  simp only [toHandle?] at h
  split at h
  · assumption
  · cases h

theorem handleBase_le_ofHandle (r : Handle) : handleBase ≤ (ofHandle r).bits := by
  simpa [isHandle] using isHandle_ofHandle r

theorem ofHandle_ne {w : UInt64} (h : w < handleBase) (r : Handle) : (ofHandle r).bits ≠ w := by
  intro he
  have hle := handleBase_le_ofHandle r
  rw [he] at hle
  rw [UInt64.lt_iff_toNat_lt] at h
  rw [UInt64.le_iff_toNat_le] at hle
  omega

theorem toFloat?_ofHandle (r : Handle) : (ofHandle r).toFloat? = none := by
  simp [toFloat?, toDouble?, isNumber, isReserved, handleBase_le_ofHandle]

theorem isNil_ofHandle (r : Handle) : (ofHandle r).isNil = false := by
  simpa [isNil] using ofHandle_ne (by decide) r

theorem isBool_ofHandle (r : Handle) : (ofHandle r).isBool = false := by
  simpa [isBool] using ⟨ofHandle_ne (by decide) r, ofHandle_ne (by decide) r⟩

theorem toBool?_ofBool (b : Bool) : (ofBool b).toBool? = some b := by cases b <;> decide

theorem toBool?_ofHandle (r : Handle) : (ofHandle r).toBool? = none := by
  simp [toBool?, isBool_ofHandle]

theorem isFalsey_ofHandle (r : Handle) : (ofHandle r).isFalsey = false := by
  simpa [isFalsey, isNil_ofHandle] using ofHandle_ne (by decide) r

theorem scalarKind_ofHandle (r : Handle) : (ofHandle r).scalarKind = "object" := by
  simp [scalarKind, isNil_ofHandle, isBool_ofHandle, isHandle_ofHandle]

instance : Inhabited Value := ⟨nil⟩

instance : Coe Handle Value := ⟨ofHandle⟩

end Value

end FiberMachine
