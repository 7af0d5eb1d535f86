import HookRig.Accumulator
import HookRig.Text.Basic

/-! # Diagnostics

What can be found wrong during a run: a check made by a hook that did not hold,
or a check of the run itself. Diagnostics are handed to a receiver one by one, as
they are found.
-/

namespace HookRig

inductive Diagnostic where
  /-- A hook's check failed; `hook` is the name of the outermost hook being driven. -/
  | assertion (iteration : Iteration) (hook message : String)
  | internal (message : String)
deriving DecidableEq

namespace Diagnostic

def text : Diagnostic → String
  | .assertion iteration hook message =>
      "assertion failed in hook '" ++ hook ++ "' at iteration " ++
        Text.natural iteration.index.toNat ++ ": " ++ message
  | .internal message => "internal check failed: " ++ message

end Diagnostic

/-- Whatever diagnostics are reported to. -/
class Receiver (σ : Type) where
  receive : σ → Diagnostic → σ

/-- The receiver that keeps what it gets. -/
structure Ledger where
  newestFirst : List Diagnostic := []

namespace Ledger

def diagnostics (l : Ledger) : List Diagnostic := l.newestFirst.reverse

def receive (l : Ledger) (d : Diagnostic) : Ledger := ⟨d :: l.newestFirst⟩

instance : Receiver Ledger := ⟨receive⟩

@[simp] theorem diagnostics_receive (l : Ledger) (d : Diagnostic) :
    Ledger.diagnostics (Receiver.receive l d) = l.diagnostics ++ [d] := by
  simp [Receiver.receive, receive, diagnostics]

end Ledger

end HookRig
