import HookRig.Hook.Basic
import HookRig.Reporting.Outlets
import HookRig.Run.Progress
import HookRig.Run.Settings

/-! # The rig

A rig runs hooks under fixed settings. The coin and the sink carry over from run
to run; everything else starts afresh. Timing is left to whoever runs the rig, and only
enters the summary.
-/

namespace HookRig

inductive Phase where
  | idle
  /-- A run was started, and has not completed. -/
  | running
  | done
deriving DecidableEq

def Phase.name : Phase → String
  | .idle => "Idle"
  | .running => "Running"
  | .done => "Done"

structure Rig (κ : Type) where
  settings : Settings
  coin : κ
  sink : Sink := .journal
  phase : Phase := .idle

inductive Ending where
  | completed (summary : Summary)
  | panicked (message : String)

def Ending.summary? : Ending → Option Summary
  | .completed summary => some summary
  | .panicked _ => none

structure Aftermath (κ η : Type) where
  rig : Rig κ
  hook : η
  outlets : Outlets
  ending : Ending
  notes : List Note

/-- A run whose loop has ended, before it is summed up. -/
structure Drive (κ η : Type) where
  rig : Rig κ
  name : String
  outcome : Outcome (Progress κ Delivery η)

namespace Rig

variable {κ η : Type}

def ofSettings (settings : Settings) (coin : κ) : Except Settings.Problem (Rig κ) :=
  match settings.problem? with
  | some problem => .error problem
  | none => .ok { settings, coin }

def settingsCoin (settings : Settings) : Coin :=
  .seeded (.withBias settings.seed settings.bias)

def new (settings : Settings) : Except Settings.Problem (Rig Coin) :=
  ofSettings settings (settingsCoin settings)

def withCoin {κ' : Type} (r : Rig κ) (coin : κ') : Rig κ' := { r with coin }

def withSink (r : Rig κ) (sink : Sink) : Rig κ := { r with sink }

/-- The part that makes the records of a run. -/
def target : String := "artbench_engine::harness"

def startText (r : Rig κ) (name : String) : String :=
  "running hook '" ++ name ++ "' for " ++ Text.natural r.settings.iterations.toNat ++ " iterations"

def endText (name : String) (s : Summary) : String :=
  s.text ++ " [hook=" ++ name ++ ", negations=" ++ Text.natural s.metrics.negations.toNat ++
    ", failures=" ++ Text.natural s.metrics.failures.toNat ++ ", " ++
    s.elapsed.toBinary64.sixPlaces ++ "s]"

def summary {σ : Type} (r : Rig κ) (p : Progress κ σ η) (elapsed : Elapsed) : Summary where
  iterations := r.settings.iterations
  elapsed := elapsed
  sum := p.bench.sum
  metrics := p.metrics
  trace := r.settings.keep.map fun _ => p.trace

end Rig

/-- If the run completed, make its own check and sum it up. -/
def Drive.conclude {κ η : Type} (d : Drive κ η) (elapsed : Elapsed) : Aftermath κ η :=
  match d.outcome with
  | .returned p =>
      let closed := p.close.bench
      let summary := d.rig.summary p elapsed
      { rig := { d.rig with coin := closed.coin, phase := .done }
        hook := p.hook
        outlets := closed.sink.outlets.log .info Rig.target (Rig.endText d.name summary)
        ending := .completed summary
        notes := closed.notes }
  | .panicked p message =>
      { rig := { d.rig with coin := p.bench.coin, phase := .running }
        hook := p.hook
        outlets := p.bench.sink.outlets
        ending := .panicked message
        notes := p.bench.notes }

namespace Rig

variable {κ η : Type} [Routine η]

def started (r : Rig κ) (hook : η) (out : Outlets) : Outlets :=
  out.log .debug target (r.startText (Routine.name hook))

variable [CoinSource κ]

/-- The loop of a run, up to some number of iterations. The hook's name is read
once, at the start. -/
def loop {σ : Type} [Receiver σ] (r : Rig κ) (hook : η) (sink : σ) (n : Nat) :
    Outcome (Progress κ σ η) :=
  (Progress.start hook r.coin sink).advance (Routine.name hook) r.settings.keep n

/-- Write the start record and go through the loop. -/
def drive (r : Rig κ) (hook : η) (out : Outlets) : Drive κ η where
  rig := r
  name := Routine.name hook
  outcome := r.loop hook (Delivery.mk r.sink (r.started hook out)) r.settings.iterations.toNat

def run (r : Rig κ) (hook : η) (elapsed : Elapsed) (out : Outlets) : Aftermath κ η :=
  (r.drive hook out).conclude elapsed

/-- A run with default settings but for the count, which is cut to the largest
allowed. -/
def runFor (n : UInt64) (hook : η) (elapsed : Elapsed) (out : Outlets) : Aftermath Coin η :=
  let settings := Settings.withIterations (min n Settings.maxIterations)
  Rig.run { settings, coin := settingsCoin settings } hook elapsed out

omit [Routine η] [CoinSource κ]

def outline (r : Rig κ) : Text.Outline :=
  .record "Harness" [
    .labelled "config" r.settings.outline,
    .labelled "phase" (.text r.phase.name)]

end Rig

end HookRig
