import FiberMachine.Machine.Basic
import FiberMachine.Opcode

/-!
# Operands of instructions

What an instruction reads behind its opcode: bytes, numbers of two bytes,
constants and names. A name is a constant that is a live text.
-/

namespace FiberMachine

namespace Machine

def readByte : Act UInt8 := fun m =>
  match m.running with
  | none => .error (.failed .noFiber) m
  | some ⟨id, ⟨stack, frames, caller, kind, state, module⟩⟩ =>
    match frames with
    | [] => .error .operandMissing m
    | ⟨function, chunk, ip, base, scope, constructs⟩ :: rest =>
      match chunk.code[ip]? with
      | none => .error (.malformed .endOfCode) m
      | some byte =>
        let frames := ⟨function, chunk, ip + 1, base, scope, constructs⟩ :: rest
        .ok byte { m with running := some ⟨id, ⟨stack, frames, caller, kind, state, module⟩⟩ }

def readShort : Act UInt16 := do
  let high ← readByte
  return decodeShort high (← readByte)

def readCount : Act Nat := return (← readByte).toNat

def readIndex : Act Nat := return (← readShort).toNat

def constant (index : Nat) : Act Value := do
  match (← frame).chunk.constants[index]? with
  | some v => return v
  | none => throw (.unknownConstant index)

def readName : Act Handle := do
  let index ← readIndex
  let v ← constant index
  match v.toHandle?, (← get).heap.kindOf? v with
  | some r, some .text => return r
  | _, _ => throw (.malformed (.notName index))

/-- Moves the running frame to another place in its code. -/
def jumpTo (target : Nat) : Act Unit := do
  let running ← frame
  if target ≤ running.chunk.code.size then
    changeFiber fun fiber =>
      { fiber with frames := { running with ip := target } :: fiber.frames.tail }
  else throw (.malformed (.jumpTarget running.ip))

def jumpForward (distance : Nat) : Act Unit := do jumpTo ((← frame).ip + distance)

def jumpBack (distance : Nat) : Act Unit := do
  let running ← frame
  if distance ≤ running.ip then jumpTo (running.ip - distance)
  else throw (.malformed (.jumpTarget running.ip))

end Machine

end FiberMachine
