import FiberMachine.Json.Record

/-!
# Configuration

The limits and habits of a machine. A configuration file names the fields that
differ from their defaults. The number of operand slots of a fiber is a product
that does not go beyond 64 bits.
-/

namespace FiberMachine

structure Config where
  maxFrames : Nat := 64
  slotsPerFrame : Nat := 256
  collectAt : Nat := 524288
  collectGrowth : Nat := 2
  collectAlways : Bool := false
  moduleExtension : String := ".ember"
  traces : Bool := false
deriving DecidableEq, Repr

instance : Inhabited Config := ⟨{}⟩

inductive ConfigError where
  | unreadable (reason : String)
  | notJson (line : Nat)
  | invalid (field : String)
deriving DecidableEq, Repr

namespace ConfigError

def message : ConfigError → String
  | unreadable reason => "Failed to read config: " ++ reason
  | notJson line => s!"Invalid config JSON: no configuration, by line {line}"
  | invalid field => s!"Invalid config: {field} must be at least 1"

end ConfigError

namespace Config

def wordLimit : Nat := 0xffffffffffffffff

/-- The operand slots of one fiber. -/
def stackSlots (c : Config) : Nat := min (c.maxFrames * c.slotsPerFrame) wordLimit

structure Valid (c : Config) : Prop where
  frames : 0 < c.maxFrames
  slots : 0 < c.slotsPerFrame
  growth : 0 < c.collectGrowth

def validate (c : Config) : Except ConfigError Config :=
  if c.maxFrames = 0 then .error (.invalid "max_frames")
  else if c.slotsPerFrame = 0 then .error (.invalid "slots_per_frame")
  else if c.collectGrowth = 0 then .error (.invalid "gc_growth_factor")
  else .ok c

theorem validate_eq_ok_iff (c d : Config) : validate c = .ok d ↔ c = d ∧ c.Valid := by
  unfold validate
  constructor
  · intro h
    split at h
    · cases h
    · split at h
      · cases h
      · split at h
        · cases h
        · cases h
          exact ⟨rfl, by omega, by omega, by omega⟩
  · rintro ⟨rfl, hf, hs, hg⟩
    rw [if_neg (by omega), if_neg (by omega), if_neg (by omega)]

open JsonText in
def fields : List (JsonText.Field Config) := [
  ⟨"max_frames", false, fun c => return { c with maxFrames := ← natural wordLimit }⟩,
  ⟨"slots_per_frame", false, fun c => return { c with slotsPerFrame := ← natural wordLimit }⟩,
  ⟨"gc_initial_threshold", false, fun c => return { c with collectAt := ← natural wordLimit }⟩,
  ⟨"gc_growth_factor", false, fun c => return { c with collectGrowth := ← natural wordLimit }⟩,
  ⟨"gc_stress", false, fun c => return { c with collectAlways := ← bool }⟩,
  ⟨"module_extension", false, fun c => return { c with moduleExtension := ← string }⟩,
  ⟨"trace_execution", false, fun c => return { c with traces := ← bool }⟩]

def parse (s : String) : Except ConfigError Config :=
  match JsonText.run (JsonText.record fields {} JsonText.maxDepth) s with
  | .error e => .error (.notJson e.line)
  | .ok c => c.validate

open JsonText in
def render (c : Config) : String := String.ofList (objectText [
  ("max_frames", naturalText c.maxFrames),
  ("slots_per_frame", naturalText c.slotsPerFrame),
  ("gc_initial_threshold", naturalText c.collectAt),
  ("gc_growth_factor", naturalText c.collectGrowth),
  ("gc_stress", boolText c.collectAlways),
  ("module_extension", quote c.moduleExtension),
  ("trace_execution", boolText c.traces)])

end Config

end FiberMachine
