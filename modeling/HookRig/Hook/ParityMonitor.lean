import HookRig.Program

/-! # The parity monitor

A two-state automaton that negates the sum whenever its coin shows one, and
follows the parity of its negations. It keeps a shadow of the run: the index and
the sum of its last call, from which it predicts what it will find at the next.
-/

namespace HookRig

inductive Parity where
  | even
  | odd
deriving DecidableEq

namespace Parity

def toggle : Parity → Parity
  | .even => .odd
  | .odd => .even

def ofCount (n : UInt64) : Parity := if n % 2 = 0 then .even else .odd

end Parity

structure ParityMonitor where
  parity : Parity := .even
  /-- Negations since the last call at index zero. -/
  negations : UInt64 := 0
  /-- The index of the last call and the sum it left. -/
  last : Option (Iteration × Int64) := none
deriving DecidableEq

namespace ParityMonitor

def negated (m : ParityMonitor) : ParityMonitor :=
  { m with parity := m.parity.toggle, negations := m.negations + 1 }

/-- Compare what a call finds with the shadow. A call at index zero starts afresh. -/
def observe (m : ParityMonitor) (i : Iteration) (sum : Int64) : Program ParityMonitor :=
  if i = .zero then do
    Program.check (sum = 0) "accumulator not zero at start of run"
    return {}
  else match m.last with
    | none => pure m
    | some (previous, left) => do
        Program.check (i = previous.next) "iteration does not follow the previous call"
        Program.check (sum = left + previous.addend) "accumulator diverged from shadow prediction"
        return m

/-- Draw, and negate if the coin shows one. -/
def react (m : ParityMonitor) : Program ParityMonitor := do
  if ← Program.draw then
    Program.antiOp
    return m.negated
  else
    return m

def call (m : ParityMonitor) : Program (Outcome ParityMonitor) := do
  let i ← Program.iteration
  let m ← m.observe i (← Program.sum)
  let m ← m.react
  Program.check (m.parity = Parity.ofCount m.negations) "state disagrees with negation parity"
  return .returned { m with last := some (i, ← Program.sum) }

instance : Routine ParityMonitor where
  name _ := "simple-state"
  call := call

end ParityMonitor

end HookRig
