import HookRig.Hook.ParityMonitor
import HookRig.Text.Basic

/-! # Hooks

The hooks of the library, chains of hooks, and hooks of a kind of the caller's
own. A hook is a value that carries its own state; its call leads to the next
one. The hooks of a chain are called in order on one and the same bench, and a
panic in one of them leaves the later ones uncalled.
-/

namespace HookRig

/-- The iterations at which a scheduled hook negates. -/
inductive Schedule where
  | always
  | among (indices : List UInt64)
deriving DecidableEq

namespace Schedule

def never : Schedule := .among []

def includes : Schedule → Iteration → Bool
  | .always, _ => true
  | .among indices, i => indices.contains i.index

end Schedule

inductive Hook (ε : Type) where
  | noop
  /-- Negates at every call. -/
  | antiOp
  /-- Negates when the coin shows one. -/
  | nondetAntiOp
  /-- Negates, then checks that the sum is not negative. -/
  | signCheck
  | monitor (monitor : ParityMonitor)
  | counting (calls : UInt64)
  | scheduled (schedule : Schedule)
  /-- Fails a check at every multiple of the period; zero counts as one. -/
  | failing (period : UInt64)
  /-- Records the sum it finds, newest first. -/
  | recording (newestFirst : List Int64)
  /-- Adds to the sum, uncounted. -/
  | tamper (delta : Int64)
  /-- A hook of the caller's own kind. -/
  | custom (hook : ε)
  | chain (name : String) (hooks : List (Hook ε))

namespace Hook

variable {ε : Type} [Routine ε]

def name : Hook ε → String
  | .noop => "noop"
  | .antiOp => "anti-op"
  | .nondetAntiOp => "nondet-anti-op"
  | .signCheck => "sign-check"
  | .monitor m => Routine.name m
  | .counting _ => "counting"
  | .scheduled _ => "scripted"
  | .failing _ => "failing_check"
  | .recording _ => "recording"
  | .tamper _ => "tamper"
  | .custom h => Routine.name h
  | .chain name _ => name

/-- A period of zero counts as one. -/
def stride (period : UInt64) : UInt64 := if period = 0 then 1 else period

def failsAt (period : UInt64) (i : Iteration) : Bool := i.index % stride period = 0

mutual

def call : Hook ε → Program (Outcome (Hook ε))
  | .noop => return .returned .noop
  | .antiOp => do
      Program.antiOp
      return .returned .antiOp
  | .nondetAntiOp => do
      if ← Program.draw then Program.antiOp
      return .returned .nondetAntiOp
  | .signCheck => do
      Program.antiOp
      let sum ← Program.sum
      Program.check (0 ≤ sum) ("sum " ++ Text.integer sum.toInt ++ " is negative")
      return .returned .signCheck
  | .monitor m => do
      return (← Routine.call m).map .monitor
  | .counting calls => return .returned (.counting (calls + 1))
  | .scheduled schedule => do
      if schedule.includes (← Program.iteration) then Program.antiOp
      return .returned (.scheduled schedule)
  | .failing period => do
      Program.check (!failsAt period (← Program.iteration)) "deliberate failure"
      return .returned (.failing period)
  | .recording newestFirst => do
      return .returned (.recording ((← Program.sum) :: newestFirst))
  | .tamper delta => do
      Program.store ((← Program.sum) + delta)
      return .returned (.tamper delta)
  | .custom h => do
      return (← Routine.call h).map .custom
  | .chain name hooks => do
      return (← callAll hooks).map (.chain name)

def callAll : List (Hook ε) → Program (Outcome (List (Hook ε)))
  | [] => return .returned []
  | hook :: rest => do
      match ← hook.call with
      | .returned hook' => return (← callAll rest).map (hook' :: ·)
      | .panicked hook' message => return .panicked (hook' :: rest) message

end

instance : Routine (Hook ε) := ⟨name, call⟩

omit [Routine ε]

/-- Append a hook to a chain; any other hook stays as it is. -/
def push : Hook ε → Hook ε → Hook ε
  | .chain name hooks, added => .chain name (hooks ++ [added])
  | other, _ => other

/-- The chain with one more hook, for a chain that is built in one expression. -/
def andThen (chain added : Hook ε) : Hook ε := chain.push added

def seen : Hook ε → List Int64
  | .recording newestFirst => newestFirst.reverse
  | _ => []

end Hook

end HookRig
