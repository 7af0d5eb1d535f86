import HookRig.CommandLine.Token
import HookRig.CommandLine.Value
import HookRig.Run.Settings
import HookRig.Text.Terminal

/-! # Command-line arguments

Arguments are read from left to right. The value of a setting may follow as a
token of its own; it is then stored only when the next option comes or the
arguments end, so a token that is not understood is reported before a value that
is not.
-/

namespace HookRig.CommandLine

open Text (Style)

structure Arguments where
  iterations : UInt64 := 10000
  seed : UInt64 := 0
  hook : Stock := .default
  bias : Binary64 := .half
  trace : Bool := false

def Arguments.settings (a : Arguments) : Settings where
  iterations := a.iterations
  seed := a.seed
  bias := a.bias
  recordTrace := a.trace

inductive Command where
  | run (arguments : Arguments)
  | help
  | version

inductive Refusal where
  | missingValue (setting : Setting)
  /-- An option, as it is shown, was given twice. -/
  | repeated (usage : String)
  | badValue (setting : Setting) (value : String) (fault : Fault)
  | unexpectedToken (shown : String)
  | unexpectedValue (switch : Switch) (value : String)

/-- What is wrong, with what was given and what was expected set apart. -/
def Refusal.complaint : Refusal → String
  | .missingValue setting =>
      "a value is required for '" ++ Style.literal.apply setting.usage ++
        "' but none was supplied"
  | .repeated usage =>
      "the argument '" ++ Style.wrong.apply usage ++ "' cannot be used multiple times"
  | .badValue setting value fault =>
      "invalid value '" ++ Style.wrong.apply value ++ "' for '" ++
        Style.literal.apply setting.usage ++ "': " ++ fault.message
  | .unexpectedToken shown => "unexpected argument '" ++ Style.wrong.apply shown ++ "' found"
  | .unexpectedValue switch value =>
      "unexpected value '" ++ Style.wrong.apply value ++ "' for '" ++
        Style.literal.apply switch.usage ++ "' found; no more were expected"

def Refusal.terminalText (r : Refusal) : String :=
  Style.alarm.apply "error:" ++ " " ++ r.complaint ++
    "\n\nFor more information, try '" ++ Style.literal.apply Switch.help.usage ++ "'.\n"

/-- The first line that is seen of a refusal. What was given is quoted as it is,
so a terminal obeys the controls in it. -/
def Refusal.message (r : Refusal) : String :=
  Text.firstLine (Text.visible .ends r.terminalText)

/-- The first line of a refusal as the error stream lets it through. -/
def Refusal.streamedMessage (r : Refusal) : String :=
  Text.firstLine (Text.visible .suspends r.terminalText)

structure Reading where
  iterations : Option UInt64 := none
  seed : Option UInt64 := none
  hook : Option Stock := none
  bias : Option Binary64 := none
  trace : Bool := false
  /-- A setting that is not stored yet, with its value if that has come. -/
  pending : Option (Setting × Option String) := none

namespace Reading

/-- What is not given has its default. -/
def arguments (r : Reading) : Arguments :=
  let defaults : Arguments := {}
  { iterations := r.iterations.getD defaults.iterations
    seed := r.seed.getD defaults.seed
    hook := r.hook.getD defaults.hook
    bias := r.bias.getD defaults.bias
    trace := r.trace }

def has (r : Reading) : Setting → Bool
  | .iterations => r.iterations.isSome
  | .seed => r.seed.isSome
  | .hook => r.hook.isSome
  | .bias => r.bias.isSome

/-- A setting is stored once only, and its value must be readable. -/
def store (r : Reading) (setting : Setting) (value : String) : Except Refusal Reading :=
  if r.has setting then .error (.repeated setting.usage)
  else
    let stored : Except Fault Reading := match setting with
      | .iterations => (readCount value).map fun n => { r with iterations := some n }
      | .seed => (readCount value).map fun n => { r with seed := some n }
      | .hook => (readHook value).map fun h => { r with hook := some h }
      | .bias => (readNumber value).map fun p => { r with bias := some p }
    stored.mapError (.badValue setting value)

def settle (r : Reading) : Except Refusal Reading :=
  match r.pending with
  | none => .ok r
  | some (setting, none) => .error (.missingValue setting)
  | some (setting, some value) => { r with pending := none }.store setting value

def command (r : Reading) : List String → Except Refusal Command
  | [] => do return .run (← r.settle).arguments
  | s :: rest =>
      match Token.ofString s with
      | .marker =>
          match rest with
          | [] => do return .run (← r.settle).arguments
          | word :: _ => .error (.unexpectedToken word)
      | .unknown shown => .error (.unexpectedToken shown)
      | .word text =>
          match r.pending with
          | some (setting, none) =>
              { r with pending := some (setting, some text) }.command rest
          | _ => .error (.unexpectedToken text)
      | .switch switch (some value) => .error (.unexpectedValue switch value)
      | .switch .help none => do
          let _ ← r.settle
          return .help
      | .switch .version none => do
          let _ ← r.settle
          return .version
      | .switch .trace none => do
          let r ← r.settle
          if r.trace then .error (.repeated Switch.trace.usage)
          else Reading.command { r with trace := true } rest
      | .setting setting none => do
          let r ← r.settle
          Reading.command { r with pending := some (setting, none) } rest
      | .setting setting (some value) => do
          let r ← (← r.settle).store setting value
          r.command rest

end Reading

def Command.read (args : List String) : Except Refusal Command := Reading.command {} args

end HookRig.CommandLine
