import HookRig.Hook.Basic
import HookRig.Text.Basic

/-! # Stock hooks

The hooks that can be chosen by name, and the descriptions of chains and of
hooks of the caller's own.
-/

namespace HookRig

inductive Stock where
  | noop
  | antiOp
  | nondetAntiOp
  | simpleState
  | signCheck
deriving DecidableEq

namespace Stock

def all : List Stock := [.noop, .antiOp, .nondetAntiOp, .simpleState, .signCheck]

def default : Stock := .simpleState

def name : Stock → String
  | .noop => "noop"
  | .antiOp => "anti-op"
  | .nondetAntiOp => "nondet-anti-op"
  | .simpleState => "simple-state"
  | .signCheck => "sign-check"

def names : String := ", ".intercalate (all.map name)

def ofName? (s : String) : Option Stock := all.find? (·.name == s)

def unknownText (s : String) : String :=
  "unknown hook '" ++ s ++ "' (expected one of: " ++ names ++ ")"

variable {ε : Type}

def build : Stock → Hook ε
  | .noop => .noop
  | .antiOp => .antiOp
  | .nondetAntiOp => .nondetAntiOp
  | .simpleState => .monitor {}
  | .signCheck => .signCheck

theorem name_build [Routine ε] (s : Stock) : (s.build : Hook ε).name = s.name := by
  cases s <;> rfl

end Stock

namespace Hook

variable {ε : Type} [Routine ε]

/-- The description of a chain, by the names of its hooks, or of a hook of the
caller's own. -/
def outline? : Hook ε → Option Text.Outline
  | .chain name hooks => some (.record "HookChain" [
      .labelled "name" (.text (Text.quoted name)),
      .labelled "hooks" (.list (hooks.map fun h => .text (Text.quoted h.name)))])
  | .custom h => some (.record "FnHook" [.labelled "name" (.text (Text.quoted (Routine.name h)))])
  | _ => none

end Hook

end HookRig
