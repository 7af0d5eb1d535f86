import HookRig.Binary64.Layout
import HookRig.Text.Basic

/-! # Settings of a run

How many iterations to make, the seed and the bias of the coin, and whether to
record a trace and how much of it.
-/

namespace HookRig

structure Settings where
  iterations : UInt64 := 10000
  seed : UInt64 := 0
  bias : Binary64 := .half
  recordTrace : Bool := false
  traceLimit : Nat := 10000

namespace Settings

def maxIterations : UInt64 := Int64.maxValue.toUInt64

def withIterations (n : UInt64) : Settings := { iterations := n }

def reference (seed : UInt64) : Settings := { iterations := 10000, seed }

def stress (seed : UInt64) : Settings := { iterations := 1000000, seed }

/-- Equal settings have numerically equal biases. -/
def same (s t : Settings) : Bool :=
  s.iterations == t.iterations && s.seed == t.seed && s.bias.sameNumber t.bias &&
    s.recordTrace == t.recordTrace && s.traceLimit == t.traceLimit

/-- How many steps of the trace to keep, if it is recorded. -/
def keep (s : Settings) : Option Nat := if s.recordTrace then some s.traceLimit else none

inductive Problem where
  | tooManyIterations (n : UInt64)
  | badBias (bias : Binary64)
  | noTraceRoom
deriving DecidableEq

namespace Problem

def message : Problem → String
  | .tooManyIterations n =>
      "iterations " ++ Text.natural n.toNat ++ " exceeds maximum of " ++
        Text.natural maxIterations.toNat
  | .badBias bias => "p_one must be finite and in [0.0, 1.0], got " ++ bias.text .plain
  | .noTraceRoom => "trace_limit must be at least 1 when tracing"

/-- Equal problems carry numerically equal values. -/
def same : Problem → Problem → Bool
  | .tooManyIterations m, .tooManyIterations n => m == n
  | .badBias p, .badBias q => p.sameNumber q
  | .noTraceRoom, .noTraceRoom => true
  | _, _ => false

end Problem

/-- The first problem, in the order count, bias, trace. -/
def problem? (s : Settings) : Option Problem :=
  if maxIterations < s.iterations then some (.tooManyIterations s.iterations)
  else if !s.bias.inUnit then some (.badBias s.bias)
  else if s.recordTrace && s.traceLimit = 0 then some .noTraceRoom
  else none

def outline (s : Settings) : Text.Outline :=
  .record "HarnessConfig" [
    .labelled "iterations" (.text (Text.natural s.iterations.toNat)),
    .labelled "seed" (.text (Text.natural s.seed.toNat)),
    .labelled "p_one" (.text (s.bias.text .general)),
    .labelled "record_trace" (.text (Text.flag s.recordTrace)),
    .labelled "trace_limit" (.text (Text.natural s.traceLimit))]

end Settings

end HookRig
