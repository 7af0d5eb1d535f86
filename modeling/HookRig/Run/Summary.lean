import HookRig.Accumulator
import HookRig.Binary64.Layout
import HookRig.Text.Basic

/-! # The summary of a run -/

namespace HookRig

structure Elapsed where
  seconds : UInt64 := 0
  nanos : Fin 1000000000 := 0
deriving DecidableEq

namespace Elapsed

/-- The span in seconds: the whole seconds and the fraction are rounded first,
then their sum. -/
def toBinary64 (e : Elapsed) : Binary64 :=
  (Binary64.ofRatio e.seconds.toNat 1).addPositive (Binary64.ofRatio e.nanos 1000000000)

def ofNanos (n : Nat) : Elapsed :=
  ⟨UInt64.ofNat (n / 1000000000), Fin.ofNat 1000000000 n⟩

end Elapsed

structure TraceStep where
  iteration : Iteration
  before : Int64
  afterHook : Int64
  afterAdd : Int64
deriving DecidableEq

structure Metrics where
  calls : UInt64 := 0
  negations : UInt64 := 0
  draws : UInt64 := 0
  assertionFailures : UInt64 := 0
  internalFailures : UInt64 := 0
deriving DecidableEq

def Metrics.failures (m : Metrics) : UInt64 := m.assertionFailures + m.internalFailures

structure Summary where
  iterations : UInt64
  elapsed : Elapsed
  sum : Int64
  metrics : Metrics := {}
  trace : Option (List TraceStep) := none

namespace Summary

/-- Whole seconds only. -/
def text (s : Summary) : String :=
  Text.natural s.iterations.toNat ++ " took " ++ Text.natural s.elapsed.seconds.toNat ++
    "s (sum=" ++ Text.integer s.sum.toInt ++ ")"

end Summary

end HookRig
