import HookRig.CommandLine.Exit

/-! # The program -/

namespace HookRig.CommandLine

/-- What is kept of the journal: warnings and worse, unless the environment names
another threshold. A name that is none keeps nothing. -/
def thresholdFromEnvironment : IO Threshold := do
  match ← IO.getEnv "RUST_LOG" with
  | none => return some .warn
  | some name => return (Threshold.ofName? name).getD none

end HookRig.CommandLine

open HookRig.CommandLine in
def main (args : List String) : IO UInt32 := do
  let threshold ← thresholdFromEnvironment
  let started ← IO.monoNanosNow
  let launch ← IO.lazyPure fun _ => Launch.ofArguments args threshold
  let ended ← IO.monoNanosNow
  let exit := launch.exit (.ofNanos (ended - started))
  for line in exit.errors do
    IO.eprintln line
  IO.print exit.output
  return exit.code
