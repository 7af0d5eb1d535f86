/-! # Command-line tokens

A token is an option that takes a value, a switch that takes none, the marker
after which nothing is an option, or a word. Options and switches are long
(two dashes and a name) and may carry a value after an equals sign; two of the
switches also have a one-letter form, of which only the first letter counts.
-/

namespace HookRig.CommandLine

inductive Setting where
  | iterations
  | seed
  | hook
  | bias
deriving DecidableEq

namespace Setting

def name : Setting → String
  | .iterations => "iterations"
  | .seed => "seed"
  | .hook => "hook"
  | .bias => "p-one"

def placeholder : Setting → String
  | .iterations => "ITERATIONS"
  | .seed => "SEED"
  | .hook => "HOOK"
  | .bias => "P_ONE"

def usage (s : Setting) : String := "--" ++ s.name ++ " <" ++ s.placeholder ++ ">"

def all : List Setting := [.iterations, .seed, .hook, .bias]

end Setting

inductive Switch where
  | trace
  | help
  | version
deriving DecidableEq

namespace Switch

def name : Switch → String
  | .trace => "trace"
  | .help => "help"
  | .version => "version"

def usage (s : Switch) : String := "--" ++ s.name

def letter? : Switch → Option Char
  | .trace => none
  | .help => some 'h'
  | .version => some 'V'

def all : List Switch := [.trace, .help, .version]

end Switch

inductive Token where
  | setting (setting : Setting) (value : Option String)
  | switch (switch : Switch) (value : Option String)
  /-- Two dashes alone. -/
  | marker
  /-- An option that there is not, as it is shown. -/
  | unknown (shown : String)
  | word (text : String)

namespace Token

/-- A long option: the name ends at the first equals sign. -/
def long (body : List Char) : Token :=
  let name := String.ofList (body.takeWhile (· != '='))
  let value := match body.dropWhile (· != '=') with
    | [] => none
    | _ :: value => some (String.ofList value)
  match Setting.all.find? (·.name == name) with
  | some found => .setting found value
  | none =>
    match Switch.all.find? (·.name == name) with
    | some found => .switch found value
    | none => .unknown ("--" ++ name)

def short (letter : Char) : Token :=
  match Switch.all.find? (·.letter? == some letter) with
  | some found => .switch found none
  | none => .unknown (String.ofList ['-', letter])

/-- A lone dash is a word. -/
def ofString (s : String) : Token :=
  match s.toList with
  | ['-', '-'] => .marker
  | '-' :: '-' :: body => long body
  | '-' :: letter :: _ => short letter
  | _ => .word s

end Token

end HookRig.CommandLine
