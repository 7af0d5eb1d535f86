import HookRig.Accumulator

/-! # What a hook may do

A hook acts on the run it belongs to only through requests: it reads the index,
the sum and the counters, stores a sum, asks for the counted negation, draws
from the coin, makes a check, or leaves a note. One call of a hook is a program
of such requests, each of which may depend on the replies so far. A program
cannot see the coin, the diagnostics, the trace or the notes.
-/

namespace HookRig

/-- What a run counts on behalf of its hook. -/
structure Counters where
  negations : UInt64 := 0
  draws : UInt64 := 0
  failures : UInt64 := 0
deriving DecidableEq

/-- A remark that a hook leaves for whoever drives it. -/
inductive Note where
  | drew (one : Bool)
  | checked (held : Bool)
  | addedIndex (wrapped : Bool)
  | read (iteration : Iteration) (sum : Int64) (counters : Counters)
deriving DecidableEq

inductive Request where
  | iteration
  | sum
  | counters
  | store (sum : Int64)
  | antiOp
  | draw
  | check (holds : Bool) (message : String)
  | note (remark : Note)

def Request.Reply : Request → Type
  | .iteration => Iteration
  | .sum => Int64
  | .counters => Counters
  | .store _ => Unit
  | .antiOp => Unit
  | .draw => Bool
  | .check _ _ => Unit
  | .note _ => Unit

/-- A finite tree of requests, branching on their replies. -/
inductive Program (α : Type) where
  | done (result : α)
  | ask (request : Request) (next : request.Reply → Program α)

namespace Program

variable {α β : Type}

def bind : Program α → (α → Program β) → Program β
  | .done a, f => f a
  | .ask r next, f => .ask r fun reply => (next reply).bind f

instance : Monad Program where
  pure := .done
  bind := bind

def iteration : Program Iteration := .ask .iteration .done

def sum : Program Int64 := .ask .sum .done

def counters : Program Counters := .ask .counters .done

/-- Overwrite the sum, uncounted. -/
def store (sum : Int64) : Program Unit := .ask (.store sum) .done

def antiOp : Program Unit := .ask .antiOp .done

def draw : Program Bool := .ask .draw .done

/-- Report and count a failure unless `holds`. -/
def check (holds : Bool) (message : String) : Program Unit := .ask (.check holds message) .done

def note (remark : Note) : Program Unit := .ask (.note remark) .done

end Program

/-- How a call or a run ended, with the state it left behind: a panic keeps what
was done before it. -/
inductive Outcome (σ : Type) where
  | returned (state : σ)
  | panicked (state : σ) (message : String)

namespace Outcome

variable {σ τ : Type}

def map (f : σ → τ) : Outcome σ → Outcome τ
  | .returned s => .returned (f s)
  | .panicked s message => .panicked (f s) message

def state : Outcome σ → σ
  | .returned s => s
  | .panicked s _ => s

@[simp] theorem state_map (f : σ → τ) (o : Outcome σ) : (o.map f).state = f o.state := by
  cases o <;> rfl

end Outcome

/-- A kind of hook: its values are its states, each with a name and a call that
leads to the next state. -/
class Routine (η : Type) where
  name : η → String
  call : η → Program (Outcome η)

end HookRig
