import HookRig.CommandLine.Arguments
import HookRig.Rig

/-! # Running from the command line

The arguments choose a stock hook and the settings of one run. Its summary line
goes to the output and its journal to the error stream.
-/

namespace HookRig

/-- There are no hooks of the caller's own here. -/
instance : Routine Empty where
  name := nofun
  call := nofun

namespace CommandLine

def target : String := "artbench::cli"

def stepText (s : TraceStep) : String :=
  let i := Text.natural s.iteration.index.toNat
  "iteration " ++ i ++ ": " ++ Text.integer s.before.toInt ++ " -> hook -> " ++
    Text.integer s.afterHook.toInt ++ " -> +" ++ i ++ " -> " ++ Text.integer s.afterAdd.toInt

def logTrace (out : Outlets) (steps : List TraceStep) : Outlets :=
  steps.foldl (fun o s => o.log .debug target (stepText s)) out

namespace Arguments

/-- The loop of the run that the arguments ask for. -/
def drive (a : Arguments) (out : Outlets) : Except Settings.Problem (Drive Coin (Hook Empty)) :=
  (Rig.new a.settings).map fun rig => rig.drive a.hook.build out

end Arguments

def conclude (d : Drive Coin (Hook Empty)) (elapsed : Elapsed) : Ending × Outlets :=
  let after := d.conclude elapsed
  let steps := (after.ending.summary?.bind Summary.trace).getD []
  (after.ending, logTrace after.outlets steps)

/-- The line to print for a run; refused settings are logged and give none. -/
def lineOf (drive : Except Settings.Problem (Drive Coin (Hook Empty))) (elapsed : Elapsed)
    (out : Outlets) : Option String × Outlets :=
  match drive with
  | .error problem => (none, out.log .error target ("invalid configuration: " ++ problem.message))
  | .ok d =>
      let (ending, out) := conclude d elapsed
      (ending.summary?.map Summary.text, out)

namespace Arguments

def execute (a : Arguments) (elapsed : Elapsed) (out : Outlets) :
    Except Settings.Problem Ending × Outlets :=
  match a.drive out with
  | .error problem => (.error problem, out)
  | .ok d => (conclude d elapsed).map .ok id

def line (a : Arguments) (elapsed : Elapsed) (out : Outlets) : Option String × Outlets :=
  lineOf (a.drive out) elapsed out

end Arguments

def helpText : String :=
  "Timed runtime-verification driver for ART monitor hooks\n" ++
  "\n" ++
  "Usage: artbench [OPTIONS]\n" ++
  "\n" ++
  "Options:\n" ++
  "      --iterations <ITERATIONS>  Number of hook invocations [default: 10000]\n" ++
  "      --seed <SEED>              Seed for the nondeterminism coin [default: 0]\n" ++
  "      --hook <HOOK>              Hook to drive: " ++ Stock.names ++
    " [default: " ++ Stock.default.name ++ "]\n" ++
  "      --p-one <P_ONE>            Probability that the coin yields 1 [default: 0.5]\n" ++
  "      --trace                    Record and log (at debug level) every iteration's " ++
    "accumulator values\n" ++
  "  -h, --help                     Print help\n" ++
  "  -V, --version                  Print version\n"

def versionText : String := "artbench 0.1.0\n"

structure Exit where
  code : UInt32
  output : String
  errors : List String

/-- A launched program after its run, before it is timed, and where its records
went until then. -/
inductive Launch where
  | ended (exit : Exit)
  | driven (drive : Except Settings.Problem (Drive Coin (Hook Empty))) (out : Outlets)

def Launch.ofArguments (args : List String) (threshold : Threshold) : Launch :=
  match Command.read args with
  | .error refusal => .ended ⟨2, "", [refusal.streamedMessage]⟩
  | .ok .help => .ended ⟨0, helpText, []⟩
  | .ok .version => .ended ⟨0, versionText, []⟩
  | .ok (.run arguments) =>
      let out : Outlets := { journal := { threshold } }
      .driven (arguments.drive out) out

def Launch.exit (p : Launch) (elapsed : Elapsed) : Exit :=
  match p with
  | .ended exit => exit
  | .driven drive out =>
      let (line, out) := lineOf drive elapsed out
      ⟨0, (line.map (· ++ "\n")).getD "", out.journal.records.map Record.line⟩

end CommandLine

end HookRig
