import HookRig.Program
import HookRig.Coin
import HookRig.Reporting.Diagnostic

/-! # The bench: what hook calls act on

A bench holds all that outlives one hook call: the accumulator, the coin, the
receiver of diagnostics, the counters, and the notes so far. Running a hook's
program on a bench answers its requests one by one; a check that does not hold
is reported at once. A bench can also be driven by hand, with calls at any index
and writes in between.
-/

namespace HookRig

/-- Where a call stands: the name its failures are reported under, and its index. -/
structure Site where
  hook : String
  iteration : Iteration

structure Bench (κ σ : Type) where
  accumulator : Accumulator := .zero
  coin : κ
  sink : σ
  counters : Counters := {}
  /-- Notes, newest first. -/
  noted : List Note := []

namespace Bench

variable {κ σ : Type}

def diagnostics (b : Bench κ Ledger) : List Diagnostic := b.sink.diagnostics

def notes (b : Bench κ σ) : List Note := b.noted.reverse

def sum (b : Bench κ σ) : Int64 := b.accumulator.value

def set (b : Bench κ σ) (sum : Int64) : Bench κ σ := { b with accumulator := ⟨sum⟩ }

def negate (b : Bench κ σ) : Bench κ σ := { b with accumulator := b.accumulator.negate }

def addIndex (b : Bench κ σ) (i : Iteration) : Bench κ σ :=
  { b with accumulator := b.accumulator.addIndex i }

def report [Receiver σ] (b : Bench κ σ) (d : Diagnostic) : Bench κ σ :=
  { b with sink := Receiver.receive b.sink d }

@[simp] theorem diagnostics_report (b : Bench κ Ledger) (d : Diagnostic) :
    (b.report d).diagnostics = b.diagnostics ++ [d] := by
  simp [report, diagnostics]

@[simp] theorem sum_set (b : Bench κ σ) (sum : Int64) : (b.set sum).sum = sum := rfl

@[simp] theorem sum_negate (b : Bench κ σ) : b.negate.sum = -b.sum := rfl

@[simp] theorem sum_addIndex (b : Bench κ σ) (i : Iteration) :
    (b.addIndex i).sum = b.sum + i.addend := rfl

def countNegation (b : Bench κ σ) : Bench κ σ :=
  { b with counters.negations := b.counters.negations + 1 }

def countFailure (b : Bench κ σ) : Bench κ σ :=
  { b with counters.failures := b.counters.failures + 1 }

variable [CoinSource κ]

def flip (b : Bench κ σ) : Bool × Bench κ σ :=
  let (side, coin) := CoinSource.flip b.coin
  (side, { b with coin := coin, counters.draws := b.counters.draws + 1 })

variable [Receiver σ]

/-- The reply to one request, and the bench after it. -/
def answer (site : Site) (b : Bench κ σ) : (r : Request) → r.Reply × Bench κ σ
  | .iteration => (site.iteration, b)
  | .sum => (b.sum, b)
  | .counters => (b.counters, b)
  | .store sum => ((), b.set sum)
  | .antiOp => ((), b.negate.countNegation)
  | .draw => b.flip
  | .check holds message =>
      ((), if holds then b
        else b.countFailure.report (.assertion site.iteration site.hook message))
  | .note remark => ((), { b with noted := remark :: b.noted })

end Bench

namespace Program

variable {κ σ α β : Type} [CoinSource κ] [Receiver σ]

/-- Answer all requests of a program in turn. -/
def run (site : Site) : Program α → Bench κ σ → α × Bench κ σ
  | .done a, b => (a, b)
  | .ask r next, b => ((next (b.answer site r).1).run site) (b.answer site r).2

theorem run_bind (site : Site) (p : Program α) (f : α → Program β) (b : Bench κ σ) :
    (p.bind f).run site b = (f (p.run site b).1).run site (p.run site b).2 := by
  induction p generalizing b with
  | done a => rfl
  | ask r next ih => exact ih _ _

@[simp] theorem run_pure (site : Site) (a : α) (b : Bench κ σ) :
    (pure a : Program α).run site b = (a, b) := rfl

@[simp] theorem run_then (site : Site) (p : Program α) (f : α → Program β) (b : Bench κ σ) :
    (p >>= f).run site b = (f (p.run site b).1).run site (p.run site b).2 :=
  run_bind site p f b

@[simp] theorem run_iteration (site : Site) (b : Bench κ σ) :
    iteration.run site b = (site.iteration, b) := rfl

@[simp] theorem run_sum (site : Site) (b : Bench κ σ) : sum.run site b = (b.sum, b) := rfl

@[simp] theorem run_store (site : Site) (sum : Int64) (b : Bench κ σ) :
    (store sum).run site b = ((), b.set sum) := rfl

@[simp] theorem run_antiOp (site : Site) (b : Bench κ σ) :
    antiOp.run site b = ((), b.negate.countNegation) := rfl

@[simp] theorem run_draw (site : Site) (b : Bench κ σ) : draw.run site b = b.flip := rfl

@[simp] theorem run_check (site : Site) (holds : Bool) (message : String) (b : Bench κ σ) :
    (check holds message).run site b = ((), (b.answer site (.check holds message)).2) := rfl

end Program

namespace Bench

variable {κ σ η : Type} [CoinSource κ] [Receiver σ] [Routine η]

/-- One call of a hook, its failures reported under `name`. -/
def callAs (b : Bench κ σ) (name : String) (hook : η) (i : Iteration) : Outcome η × Bench κ σ :=
  (Routine.call hook).run ⟨name, i⟩ b

def call (b : Bench κ σ) (hook : η) (i : Iteration) : Outcome η × Bench κ σ :=
  b.callAs (Routine.name hook) hook i

def step (b : Bench κ σ) (hook : η) (i : Iteration) : Outcome η × Bench κ σ :=
  match b.call hook i with
  | (.returned hook', b') => (.returned hook', b'.addIndex i)
  | panicked => panicked

end Bench

end HookRig
