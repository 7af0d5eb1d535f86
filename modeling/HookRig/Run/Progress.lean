import HookRig.Bench
import HookRig.Run.Summary

/-! # The loop of a run

A run starts with a fresh bench and calls its hook once per index, adding the
index after each call. Its progress is all that the loop knows between two
iterations. A panic stops the loop in the middle of an iteration.
-/

namespace HookRig

structure Progress (κ σ η : Type) where
  hook : η
  bench : Bench κ σ
  /-- Completed iterations, which is also the next index. -/
  calls : Nat := 0
  /-- Index additions that wrapped. -/
  wraps : Nat := 0
  firstWrap : Option Iteration := none
  recorded : Array TraceStep := #[]

namespace Progress

variable {κ σ η : Type}

def start (hook : η) (coin : κ) (sink : σ) : Progress κ σ η := { hook, bench := { coin, sink } }

def index (p : Progress κ σ η) : Iteration := .ofNat p.calls

def trace (p : Progress κ σ η) : List TraceStep := p.recorded.toList

/-- The end of an iteration that called the hook: add the index and keep the
books. A step is recorded while there is room for it. -/
def complete (p : Progress κ σ η) (keep : Option Nat) (hook : η) (bench : Bench κ σ) :
    Progress κ σ η :=
  let i := p.index
  let wrapped := bench.accumulator.wraps i
  let bench' := bench.addIndex i
  let room := keep.any (p.recorded.size < ·)
  { hook
    bench := bench'
    calls := p.calls + 1
    wraps := if wrapped then p.wraps + 1 else p.wraps
    firstWrap := if wrapped then p.firstWrap.or (some i) else p.firstWrap
    recorded := if room then p.recorded.push ⟨i, p.bench.sum, bench.sum, bench'.sum⟩
      else p.recorded }

section

variable [CoinSource κ] [Receiver σ] [Routine η]

def step (name : String) (keep : Option Nat) (p : Progress κ σ η) : Outcome (Progress κ σ η) :=
  match p.bench.callAs name p.hook p.index with
  | (.returned hook, bench) => .returned (p.complete keep hook bench)
  | (.panicked hook message, bench) => .panicked { p with hook, bench } message

/-- So many iterations, or fewer if the hook panics. -/
def advance (name : String) (keep : Option Nat) : Nat → Progress κ σ η → Outcome (Progress κ σ η)
  | 0, p => .returned p
  | n + 1, p =>
      match p.step name keep with
      | .returned p' => advance name keep n p'
      | .panicked p' message => .panicked p' message

theorem advance_add (name : String) (keep : Option Nat) (m n : Nat) (p : Progress κ σ η) :
    advance name keep (m + n) p =
      match advance name keep m p with
      | .returned p' => advance name keep n p'
      | .panicked p' message => .panicked p' message := by
  induction m generalizing p with
  | zero => simp [advance]
  | succ m ih =>
      rw [Nat.succ_add]
      simp only [advance]
      cases p.step name keep with
      | returned p' => exact ih p'
      | panicked p' message => rfl

end

/-- What the check of the run itself finds: index additions that wrapped. -/
def internalCheck (p : Progress κ σ η) : Option Diagnostic :=
  p.firstWrap.map fun first =>
    .internal ("index addition wrapped " ++ Text.natural p.wraps ++
      " time(s), first at iteration " ++ Text.natural first.index.toNat)

/-- The end of the loop: report what the check of the run itself finds. -/
def close [Receiver σ] (p : Progress κ σ η) : Progress κ σ η :=
  { p with bench := p.internalCheck.toList.foldl Bench.report p.bench }

def metrics (p : Progress κ σ η) : Metrics where
  calls := .ofNat p.calls
  negations := p.bench.counters.negations
  draws := p.bench.counters.draws
  assertionFailures := p.bench.counters.failures
  internalFailures := .ofNat p.internalCheck.toList.length

end Progress

end HookRig
