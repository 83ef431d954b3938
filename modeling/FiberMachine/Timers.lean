import FiberMachine.Value
import FiberMachine.Duration

/-!
# Timers and events

A timer is due at its deadline. Polling turns the timers that are due into
events, the earliest deadline first and the older timer first among equal ones.
Waiting moves the clock to the earliest deadline before it polls. Events are
handled in the order in which they were posted.
-/

namespace FiberMachine

inductive Event where
  | resume (fiber : Handle)
  | collect
deriving DecidableEq, Repr

namespace Event

def fiber? : Event → Option Handle
  | resume fiber => some fiber
  | collect => none

end Event

structure Timer where
  deadline : Duration
  sequence : Nat
  fiber : Handle
deriving DecidableEq, Repr

namespace Timer

/-- Whether a timer is due no later than another. -/
def before (a b : Timer) : Bool :=
  a.deadline < b.deadline || (a.deadline == b.deadline && a.sequence ≤ b.sequence)

end Timer

structure Timers where
  now : Duration
  /-- The timers that have not fired, the oldest first. -/
  pending : List Timer
  nextSequence : Nat
deriving DecidableEq, Repr

namespace Timers

def start : Timers := ⟨0, [], 0⟩

instance : Inhabited Timers := ⟨start⟩

def active (t : Timers) : Nat := t.pending.length

def advance (t : Timers) (d : Duration) : Timers := { t with now := t.now + d }

/-- Resumes a fiber after a delay. -/
def add (t : Timers) (delay : Duration) (fiber : Handle) : Timers :=
  { t with
    pending := t.pending ++ [⟨t.now.addSaturating delay, t.nextSequence, fiber⟩]
    nextSequence := t.nextSequence + 1 }

def isDue (now : Duration) (timer : Timer) : Bool := timer.deadline ≤ now

/-- The timers that are due, in the order in which they fire. -/
def due (t : Timers) : List Timer := (t.pending.filter (isDue t.now)).mergeSort Timer.before

def poll (t : Timers) : Timers × List Event :=
  match t.pending with
  | [] => (t, [])
  | pending =>
    ({ t with pending := pending.filter fun timer => !isDue t.now timer },
      t.due.map fun timer => .resume timer.fiber)

def earliest? (t : Timers) : Option Duration := (t.pending.map Timer.deadline).min?

def wait (t : Timers) : Timers × List Event :=
  match t.earliest? with
  | none => t.poll
  | some deadline => poll { t with now := max t.now deadline }

def clear (t : Timers) : Timers := { t with pending := [] }

def fibers (t : Timers) : List Handle := t.pending.map Timer.fiber

end Timers

end FiberMachine
