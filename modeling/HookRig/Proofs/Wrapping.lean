import HookRig.Hook.Script
import HookRig.Proofs.History
import HookRig.Proofs.Indices
import HookRig.Proofs.Transcript
import Mathlib.Algebra.BigOperators.Group.List.Basic
import Mathlib.Tactic.Linarith

/-! # Accounting for index additions

The books of a loop are read off its whole trace. Each index addition is exact or
too large by `2 ^ 64`; the loop counts the latter and remembers the first of them,
and the check after the loop reports both numbers.
-/

namespace HookRig

namespace TraceStep

/-- The exact sum of an index addition is larger than any sum that can be stored. -/
def exceeds (s : TraceStep) : Bool :=
  Int64.maxValue.toInt < s.afterHook.toInt + s.iteration.index.toNat

def change (s : TraceStep) : Int := s.afterHook.toInt - s.before.toInt

theorem exceeds_iff {s : TraceStep} {n : Nat} (index : s.iteration = .ofNat n) (h : n < 2 ^ 63) :
    s.exceeds = true ↔ 2 ^ 63 ≤ s.afterHook.toInt + n := by
  rw [exceeds, decide_eq_true_iff, index, Iteration.toNat_ofNat h, Int64.toInt_maxValue]
  omega

def wrapReport : List TraceStep → List Diagnostic
  | [] => []
  | first :: rest =>
      [.internal ("index addition wrapped " ++ Text.natural (rest.length + 1) ++
        " time(s), first at iteration " ++ Text.natural first.iteration.index.toNat)]

end TraceStep

namespace Progress

variable {κ σ η : Type}

structure Books (p : Progress κ σ η) : Prop where
  iterations : p.trace.map (·.iteration) = (List.range p.calls).map .ofNat
  additions : ∀ s ∈ p.trace, s.afterAdd.toInt =
    s.afterHook.toInt + s.iteration.index.toNat - 2 ^ 64 * (if s.exceeds then 1 else 0)
  wraps : p.wraps = (p.trace.filter (·.exceeds)).length
  firstWrap : p.firstWrap = (p.trace.filter (·.exceeds)).head?.map (·.iteration)
  total : 2 * (p.bench.sum.toInt + 2 ^ 64 * p.wraps - (p.trace.map (·.change)).sum) =
    p.calls * (p.calls - 1)

theorem Books.start (hook : η) (coin : κ) (sink : σ) : (start hook coin sink).Books where
  iterations := rfl
  additions := by simp [trace, Progress.start]
  wraps := rfl
  firstWrap := rfl
  total := rfl

/-- What a completed iteration adds to the books, if there is room to record it. -/
structure Entry (p q : Progress κ σ η) (s : TraceStep) : Prop where
  trace : q.trace = p.trace ++ [s]
  iteration : s.iteration = .ofNat p.calls
  index : s.iteration.index.toNat = p.calls
  before : s.before = p.bench.sum
  afterAdd : s.afterAdd = q.bench.sum
  calls : q.calls = p.calls + 1
  addition : s.afterAdd.toInt =
    s.afterHook.toInt + s.iteration.index.toNat - 2 ^ 64 * (if s.exceeds then 1 else 0)
  wraps : q.wraps = p.wraps + if s.exceeds then 1 else 0
  firstWrap : q.firstWrap = p.firstWrap.or (if s.exceeds then some s.iteration else none)

theorem entry_complete (p : Progress κ σ η) {limit : Nat} (room : p.trace.length < limit)
    (small : p.calls < 2 ^ 63) (hook : η) (bench : Bench κ σ) :
    p.Entry (p.complete (some limit) hook bench)
      ⟨p.index, p.bench.sum, bench.sum, (bench.addIndex p.index).sum⟩ := by
  generalize recorded : TraceStep.mk p.index p.bench.sum bench.sum (bench.addIndex p.index).sum = s
  have iteration : s.iteration = .ofNat p.calls := by rw [← recorded]; rfl
  have afterHook : s.afterHook = bench.accumulator.value := by rw [← recorded]; rfl
  have afterAdd : s.afterAdd = (bench.accumulator.addIndex (.ofNat p.calls)).value := by
    rw [← recorded]; rfl
  have exceeds : s.exceeds = true ↔ 2 ^ 63 ≤ s.afterHook.toInt + p.calls :=
    TraceStep.exceeds_iff iteration small
  have wrapped : bench.accumulator.wraps p.index = s.exceeds := by
    rw [Bool.eq_iff_iff, exceeds, afterHook]
    exact bench.accumulator.wraps_iff small
  constructor
  · rw [trace_complete, if_pos (by simpa using room), recorded]
  · exact iteration
  · rw [iteration, Iteration.toNat_ofNat small]
  · rw [← recorded]
  · exact afterAdd
  · rfl
  · rw [afterAdd, bench.accumulator.toInt_addIndex small, ← afterHook, iteration,
      Iteration.toNat_ofNat small, ← if_congr exceeds rfl rfl]
    split <;> omega
  · simp only [Progress.complete, wrapped]
    split <;> rfl
  · simp only [Progress.complete, wrapped, iteration]
    split
    · rfl
    · rw [Option.or_none]

theorem Books.entry {p q : Progress κ σ η} {s : TraceStep} (h : p.Books) (e : p.Entry q s) :
    q.Books := by
  have exceeding : [s].filter (·.exceeds) = if s.exceeds then [s] else [] := by
    rw [List.filter_cons, List.filter_nil]
  constructor
  · rw [e.trace, List.map_append, h.iterations, e.calls, List.range_succ, List.map_append,
      List.map_singleton, List.map_singleton, e.iteration]
  · intro t member
    rw [e.trace, List.mem_append, List.mem_singleton] at member
    rcases member with old | rfl
    · exact h.additions t old
    · exact e.addition
  · rw [e.trace, List.filter_append, List.length_append, ← h.wraps, exceeding, e.wraps]
    split <;> rfl
  · rw [e.trace, List.filter_append, List.head?_append, Option.map_or, ← h.firstWrap, exceeding,
      e.firstWrap]
    split <;> rfl
  · have balance := h.total
    have addition := e.addition
    rw [e.trace, List.map_append, List.sum_append, List.map_singleton, List.sum_singleton,
      TraceStep.change, e.before, ← e.afterAdd, addition, e.index, e.wraps, e.calls]
    push_cast
    linarith

theorem Books.internalCheck {p : Progress κ σ η} (h : p.Books) :
    p.internalCheck.toList = TraceStep.wrapReport (p.trace.filter (·.exceeds)) := by
  rw [Progress.internalCheck, h.firstWrap, h.wraps]
  cases p.trace.filter (·.exceeds) <;> rfl

theorem Books.length {p : Progress κ σ η} (h : p.Books) : p.trace.length = p.calls := by
  simpa using congrArg List.length h.iterations

theorem Books.step_at {p : Progress κ σ η} (h : p.Books) (small : p.calls ≤ 2 ^ 63) {i : Nat}
    (bound : i < p.trace.length) :
    p.trace[i].iteration.index.toNat = i ∧ p.trace[i].iteration.addend.toInt = i := by
  have length := h.length
  have at_i : p.trace[i].iteration = .ofNat i := by
    have same := List.getElem_of_eq h.iterations (by simpa using bound)
    simpa using same
  rw [at_i]
  exact ⟨Iteration.toNat_ofNat (by omega), Iteration.toInt_addend_ofNat (by omega)⟩

theorem Books.total_of_unchanged {p : Progress κ σ η} (h : p.Books)
    (unchanged : ∀ s ∈ p.trace, s.afterHook = s.before) :
    (p.calls * (p.calls - 1) / 2 : Int) = p.bench.sum.toInt + 2 ^ 64 * p.wraps := by
  have changes : (p.trace.map (·.change)).sum = 0 := by
    apply List.sum_eq_zero
    intro x member
    obtain ⟨s, recorded, rfl⟩ := List.mem_map.mp member
    rw [TraceStep.change, unchanged s recorded, Int.sub_self]
  have balance := h.total
  rw [changes, Int.sub_zero] at balance
  rw [← balance, Int.mul_ediv_cancel_left _ (by decide)]

variable [CoinSource κ] [Receiver σ] [Routine η] {name : String}

theorem Books.step {p q : Progress κ σ η} {limit : Nat} (small : limit ≤ 2 ^ 63)
    (room : p.calls < limit) (h : p.Books) (stepped : p.step name (some limit) = .returned q) :
    q.Books := by
  obtain ⟨hook, bench, -, rfl⟩ := step_returned stepped
  have space : p.trace.length < limit := h.length.symm ▸ room
  exact h.entry (p.entry_complete space (Nat.lt_of_lt_of_le room small) hook bench)

end Progress

namespace Rig

variable {κ η : Type} [CoinSource κ] [Routine η]

theorem books_of_traced {r : Rig κ} (valid : r.settings.problem? = none) {hook : η}
    {q : Progress κ Ledger η} (h : r.traced.onLedger hook = .returned q) : q.Books := by
  have small := Nat.le_of_lt (Settings.iterations_lt valid)
  rw [onLedger_traced] at h
  refine Progress.advance_invariant (fun p q room books stepped => ?_) (.start hook r.coin {})
    (Nat.le_of_eq (Nat.zero_add _)) h
  exact books.step small room stepped

theorem internalCheck_of_returned {r : Rig κ} (valid : r.settings.problem? = none) {hook : η}
    {p : Progress κ Ledger η} (h : r.onLedger hook = .returned p) :
    p.internalCheck.toList = TraceStep.wrapReport ((r.history hook).filter (·.exceeds)) := by
  rcases traced_of_returned h with ⟨q, traced, trace, agree⟩
  rw [agree.books.internalCheck, (books_of_traced valid traced).internalCheck, trace]

theorem internalFailures_of_returned {r : Rig κ} (valid : r.settings.problem? = none) {hook : η}
    {p : Progress κ Ledger η} (h : r.onLedger hook = .returned p) :
    p.metrics.internalFailures = if (r.history hook).filter (·.exceeds) = [] then 0 else 1 := by
  change UInt64.ofNat p.internalCheck.toList.length = _
  rw [internalCheck_of_returned valid h]
  cases (r.history hook).filter (·.exceeds) <;> rfl

/-- In a run that completes, each index adds exactly itself, less `2 ^ 64` where the exact sum is
too large. The run tells how often that happened, and where first. -/
theorem index_additions_accounted (r : Rig κ) (valid : r.settings.problem? = none) (hook : η)
    (elapsed : Elapsed) (out : Outlets) (s : Summary)
    (completed : (r.run hook elapsed out).ending = .completed s) :
    let n := r.settings.iterations.toNat
    let steps := r.history hook
    let exceeding := steps.filter (·.exceeds)
    steps.length = n ∧ s.trace = r.settings.keep.map steps.take ∧
      (∀ i (bound : i < steps.length),
        steps[i].iteration.index.toNat = i ∧ steps[i].iteration.addend.toInt = i ∧
          steps[i].afterAdd.toInt =
            steps[i].afterHook.toInt + i - 2 ^ 64 * (if steps[i].exceeds then 1 else 0)) ∧
      (∃ checks : List Diagnostic, (∀ d ∈ checks, d.isAssertion = true) ∧
        r.reported hook = checks ++ TraceStep.wrapReport exceeding) ∧
      (out.Serves r.sink →
        out.Gained (r.run hook elapsed out).outlets (r.reported hook) r.sink) ∧
      s.metrics.internalFailures = (if exceeding = [] then 0 else 1) ∧
      ((∀ t ∈ steps, t.afterHook = t.before) →
        (n * (n - 1) / 2 : Int) = s.sum.toInt + 2 ^ 64 * exceeding.length) := by
  intro n steps exceeding
  have small : n < 2 ^ 63 := Settings.iterations_lt valid
  obtain ⟨p, returned, rfl⟩ := returned_of_completed completed
  obtain ⟨q, traced, trace, agree⟩ := traced_of_returned returned
  have books := books_of_traced valid traced
  have calls : q.calls = n := agree.books.calls ▸ calls_of_returned returned
  refine ⟨?_, trace_of_returned returned elapsed, ?_, ?_,
    fun serves => gained_run serves hook elapsed, internalFailures_of_returned valid returned, ?_⟩
  · rw [← calls, ← books.length, trace]
  · intro i bound
    have member : steps[i] ∈ q.trace := trace ▸ List.getElem_mem bound
    have bound' : i < q.trace.length := by rw [trace]; exact bound
    have at_i : steps[i].iteration.index.toNat = i ∧ steps[i].iteration.addend.toInt = i := by
      simpa only [trace] using books.step_at (by omega) bound'
    refine ⟨at_i.1, at_i.2, ?_⟩
    rw [books.additions _ member, at_i.1]
  · refine ⟨p.bench.diagnostics, assertions_of_returned returned, ?_⟩
    rw [reported_of_returned returned, internalCheck_of_returned valid returned]
  · intro unchanged
    have total := books.total_of_unchanged (trace.symm ▸ unchanged)
    rw [calls, books.wraps, trace, ← agree.sum] at total
    exact total

/-- A script that stores the largest sum in iteration one: the addition of that index
wraps, and no other does. -/
theorem index_additions_accounted_saturating :
    let r : Rig Coin := { settings := .withIterations 4, coin := .fixed false }
    let hook : Script := ⟨"saturate", [⟨.among [1], [.store Int64.maxValue]⟩]⟩
    r.settings.problem? = none ∧ ∃ s : Summary, (r.run hook {} {}).ending = .completed s ∧
      (r.history hook).length = 4 ∧ s.metrics.internalFailures = 1 := by
  intro r hook
  have valid : r.settings.problem? = none := Settings.problem?_withIterations (by decide)
  have completes : (r.run hook {} {}).ending.summary?.isSome = true := by decide
  have wraps : (r.history hook).filter (·.exceeds) ≠ [] := by decide
  refine ⟨valid, ?_⟩
  cases ending : (r.run hook {} {}).ending with
  | panicked message => simp [ending, Ending.summary?] at completes
  | completed s =>
      have accounted := index_additions_accounted r valid hook {} {} s ending
      refine ⟨s, rfl, accounted.1, ?_⟩
      rw [accounted.2.2.2.2.2.1, if_neg wraps]

end Rig

end HookRig
