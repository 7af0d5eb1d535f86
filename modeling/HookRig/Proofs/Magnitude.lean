import HookRig.Proofs.Interruption
import HookRig.Proofs.Restraint
import HookRig.Proofs.StockRuns
import Mathlib.Algebra.Order.Ring.Int

/-! # How large a sum can get

Negations do not bring a sum further from zero than the sum of the indices added to it. Up to
`2 ^ 32` iterations that can be stored, so no addition wraps and a run that only negates
ends with the exact signed sum. A run that never negates wraps in the first iteration after
these.
-/

namespace HookRig

open Finset

private theorem abs_turn_mul (turn : Prop) [Decidable turn] (x : ℤ) :
    |(if turn then -1 else 1) * x| = |x| := by
  by_cases turned : turn
  · rw [if_pos turned, neg_one_mul, abs_neg]
  · rw [if_neg turned, one_mul]

theorem abs_signedSum_le (turns : Finset ℕ) (n : ℕ) :
    |signedSum turns n| ≤ n * (n - 1) / 2 := by
  induction n with
  | zero => simp [signedSum]
  | succ n ih =>
      have sum := abs_add_le ((if n ∈ turns then -1 else 1) * signedSum turns n) n
      rw [← signedSum_succ, abs_turn_mul, Nat.abs_cast] at sum
      rw [triangle_succ]
      omega

private theorem triangle_lt {n : ℕ} (h : n ≤ 2 ^ 32) : (n * (n - 1) / 2 : ℤ) < 2 ^ 63 := by
  have product : (n * (n - 1) : ℤ) ≤ 2 ^ 32 * (2 ^ 32 - 1) :=
    mul_le_mul_of_nonneg (by omega) (by omega) (by omega) (by decide)
  omega

theorem toInt_eq_of_modEq {x : Int64} {value : ℤ} (h : x.toInt ≡ value [ZMOD 2 ^ 64])
    (fits : |value| < 2 ^ 63) : x.toInt = value := by
  rcases abs_lt.mp fits with ⟨low, high⟩
  rw [toInt_eq_bmod h, Int.bmod_def]
  split <;> omega

theorem toInt_eq_signedSum {x : Int64} {turns : Finset ℕ} {n : ℕ}
    (h : x.toInt ≡ signedSum turns n [ZMOD 2 ^ 64]) (fits : n ≤ 2 ^ 32) :
    x.toInt = signedSum turns n :=
  toInt_eq_of_modEq h (lt_of_le_of_lt (abs_signedSum_le turns n) (triangle_lt fits))

namespace TraceStep

def KeptOrNegated (steps : List TraceStep) : Prop :=
  ∀ s ∈ steps, s.afterHook = s.before ∨ s.afterHook = -s.before

theorem NegatedOn.keptOrNegated {turns : Finset ℕ} {steps : List TraceStep}
    (h : NegatedOn turns steps) : KeptOrNegated steps := by
  intro s member
  rcases List.getElem_of_mem member with ⟨i, bound, rfl⟩
  have here := h i bound
  by_cases turned : i ∈ turns
  · rw [if_pos turned] at here
    exact .inr here
  · rw [if_neg turned] at here
    exact .inl here

theorem NegatedOn.kept {steps : List TraceStep} (h : NegatedOn ∅ steps) {i : ℕ}
    (bound : i < steps.length) : steps[i].afterHook = steps[i].before := by
  rw [h i bound, if_neg (notMem_empty i)]

theorem KeptOrNegated.exists_negatedOn {steps : List TraceStep} (h : KeptOrNegated steps) :
    ∃ turns, NegatedOn turns steps := by
  let turned (i : ℕ) : Bool := steps[i]?.any fun s => s.afterHook ≠ s.before
  refine ⟨(range steps.length).filter fun i => turned i, ?_⟩
  intro i bound
  have choice := h steps[i] (List.getElem_mem bound)
  by_cases kept : steps[i].afterHook = steps[i].before
  · simp [turned, bound, kept]
  · simp [turned, bound, choice.resolve_left kept]

variable {turns : Finset ℕ} {steps : List TraceStep} {i : ℕ}

theorem Linked.added_modEq (linked : Linked steps) (bound : i < steps.length) (small : i < 2 ^ 63) :
    steps[i].afterAdd.toInt ≡ steps[i].afterHook.toInt + i [ZMOD 2 ^ 64] := by
  have added := toInt_add_modEq steps[i].afterHook (Iteration.ofNat i).addend
  rw [Iteration.toInt_addend_ofNat small] at added
  rw [linked.added i bound]
  exact added

theorem Linked.before_modEq (linked : Linked steps) (negated : NegatedOn turns steps)
    (bound : i < steps.length) (small : i ≤ 2 ^ 63) :
    steps[i].before.toInt ≡ signedSum turns i [ZMOD 2 ^ 64] := by
  induction i with
  | zero =>
      rw [linked.first bound]
      rfl
  | succ i ih =>
      have earlier : i < steps.length := Nat.lt_of_succ_lt bound
      rw [linked.next i bound]
      exact signedSum_step (ih earlier (by omega)) (negated i earlier)
        (linked.added_modEq earlier (by omega))

theorem Linked.before_eq (linked : Linked steps) (negated : NegatedOn turns steps)
    (bound : i < steps.length) (fits : i ≤ 2 ^ 32) :
    steps[i].before.toInt = signedSum turns i :=
  toInt_eq_signedSum (linked.before_modEq negated bound (by omega)) fits

theorem Linked.afterAdd_eq (linked : Linked steps) (negated : NegatedOn turns steps)
    (bound : i < steps.length) (fits : i < 2 ^ 32) :
    steps[i].afterAdd.toInt = steps[i].afterHook.toInt + i := by
  have before := linked.before_modEq negated bound (by omega)
  have added := linked.added_modEq bound (by omega)
  have turned := signedSum_turned before (negated i bound)
  have magnitude : |(if i ∈ turns then -1 else 1) * signedSum turns i| < 2 ^ 63 := by
    rw [abs_turn_mul]
    exact lt_of_le_of_lt (abs_signedSum_le turns i) (triangle_lt (Nat.le_of_lt fits))
  rw [toInt_eq_of_modEq turned magnitude, ← signedSum_succ]
  exact toInt_eq_signedSum (signedSum_step before (negated i bound) added) fits

theorem Linked.not_exceeds (linked : Linked steps) (negated : NegatedOn turns steps)
    (bound : i < steps.length) (fits : i < 2 ^ 32) : steps[i].exceeds = false := by
  have exact_sum := linked.afterAdd_eq negated bound fits
  have high := steps[i].afterAdd.toInt_lt
  rw [Bool.eq_false_iff, ne_eq, exceeds_iff (linked.iteration i bound) (by omega)]
  omega

theorem Linked.exceeds_of_kept (linked : Linked steps) (kept : NegatedOn ∅ steps)
    (bound : 2 ^ 32 < steps.length) : steps[2 ^ 32].exceeds = true := by
  have before := linked.before_eq kept bound (Nat.le_refl _)
  rw [exceeds_iff (linked.iteration _ bound) (by decide), kept.kept bound, before, signedSum_empty]
  decide

theorem Linked.head_exceeding (linked : Linked steps) (kept : NegatedOn ∅ steps)
    (bound : 2 ^ 32 < steps.length) :
    (steps.filter (·.exceeds)).head? = some steps[2 ^ 32] := by
  rw [List.head?_filter, List.find?_eq_some_iff_getElem]
  refine ⟨linked.exceeds_of_kept kept bound, 2 ^ 32, bound, rfl, ?_⟩
  intro j earlier
  rw [linked.not_exceeds kept (Nat.lt_trans earlier bound) earlier]
  rfl

private theorem wrapReport_of_head {exceeding : List TraceStep} {first : TraceStep}
    (h : exceeding.head? = some first) :
    wrapReport exceeding = [.internal ("index addition wrapped " ++
      Text.natural exceeding.length ++ " time(s), first at iteration " ++
        Text.natural first.iteration.index.toNat)] := by
  cases exceeding with
  | nil => cases h
  | cons s rest =>
      cases h
      rfl

end TraceStep

namespace Rig

open TraceStep (NegatedOn KeptOrNegated)

variable {κ η : Type} [CoinSource κ] [Routine η]

theorem total_of_kept {r : Rig κ} (valid : r.settings.problem? = none) {hook : η}
    {p : Progress κ Ledger η} (h : r.onLedger hook = .returned p)
    (kept : NegatedOn ∅ (r.history hook)) :
    (r.settings.iterations.toNat * (r.settings.iterations.toNat - 1) / 2 : ℤ) =
      p.bench.sum.toInt + 2 ^ 64 * ((r.history hook).filter (·.exceeds)).length := by
  rcases traced_of_returned h with ⟨q, traced, trace, agree⟩
  have books := books_of_traced valid traced
  have unchanged : ∀ s ∈ q.trace, s.afterHook = s.before := by
    intro s member
    rw [trace] at member
    rcases List.getElem_of_mem member with ⟨i, bound, rfl⟩
    exact kept.kept bound
  have total := books.total_of_unchanged unchanged
  rw [books.wraps, trace, ← agree.sum, ← agree.books.calls, calls_of_returned h] at total
  exact total

theorem not_exceeds_of_keptOrNegated {r : Rig κ} {hook : η}
    (h : KeptOrNegated (r.history hook)) (fits : r.settings.iterations.toNat ≤ 2 ^ 32) :
    (r.history hook).filter (·.exceeds) = [] := by
  rcases h.exists_negatedOn with ⟨turns, negated⟩
  have length := r.length_history_le hook
  rw [List.filter_eq_nil_iff]
  intro s member
  rcases List.getElem_of_mem member with ⟨i, bound, rfl⟩
  rw [(r.linked_history hook).not_exceeds negated bound (by omega)]
  decide

/-- Where no addition exceeds, however the run ends, only checks of the hook can have failed. -/
theorem assertions_of_not_exceeding {r : Rig κ} (valid : r.settings.problem? = none) {hook : η}
    (none : (r.history hook).filter (·.exceeds) = []) :
    ∀ d ∈ r.reported hook, d.isAssertion = true := by
  cases ended : r.onLedger hook with
  | returned p =>
      have check := internalCheck_of_returned valid ended
      rw [none] at check
      rw [reported_of_returned ended, check, TraceStep.wrapReport, List.append_nil]
      exact assertions_of_returned ended
  | panicked p message =>
      rw [reported_of_panicked ended {}]
      intro d member
      rcases List.mem_map.mp member with ⟨check, -, rfl⟩
      rfl

variable {ε : Type} [Routine ε]

/-- A run of the hook that does nothing, past `2 ^ 32` iterations. -/
theorem wrapReport_noop {r : Rig κ} (valid : r.settings.problem? = none)
    {p : Progress κ Ledger (Hook ε)} (h : r.onLedger (Hook.noop : Hook ε) = .returned p)
    (kept : NegatedOn ∅ (r.history (Hook.noop : Hook ε)))
    (long : 2 ^ 32 < r.settings.iterations.toNat) :
    let n := r.settings.iterations.toNat
    TraceStep.wrapReport ((r.history (Hook.noop : Hook ε)).filter (·.exceeds)) =
      [.internal ("index addition wrapped " ++
        Text.natural ((n * (n - 1) / 2 + 2 ^ 63) / 2 ^ 64) ++
          " time(s), first at iteration 4294967296")] := by
  intro n
  have bound : 2 ^ 32 < (r.history (Hook.noop : Hook ε)).length := (history_at h).1 ▸ long
  have linked := r.linked_history (Hook.noop : Hook ε)
  have total : (n * (n - 1) / 2 : ℤ) = _ := total_of_kept valid h kept
  have low := p.bench.sum.le_toInt
  have high := p.bench.sum.toInt_lt
  have triangle : ((n * (n - 1) / 2 : ℕ) : ℤ) = n * (n - 1) / 2 := by
    rw [Int.natCast_ediv, Nat.cast_mul, Nat.cast_sub (by omega)]
    rfl
  have count : ((r.history (Hook.noop : Hook ε)).filter (·.exceeds)).length =
      (n * (n - 1) / 2 + 2 ^ 63) / 2 ^ 64 := by
    omega
  have first : (r.history (Hook.noop : Hook ε))[2 ^ 32].iteration.index.toNat = 2 ^ 32 := by
    rw [linked.iteration _ bound, Iteration.toNat_ofNat (by decide)]
  have named : " time(s), first at iteration " ++ Text.natural (2 ^ 32) =
      " time(s), first at iteration 4294967296" := by
    decide
  rw [TraceStep.wrapReport_of_head (linked.head_exceeding kept bound), count, first,
    String.append_assoc, named]

/-- Up to `2 ^ 32` iterations, a run whose calls leave the sum alone or negate it is exact. The
bound is sharp: with one more, doing nothing wraps first in iteration `2 ^ 32`. -/
theorem sums_fit_up_to_two_pow_32 (r : Rig κ) (valid : r.settings.problem? = none)
    (elapsed : Elapsed) (out : Outlets) :
    let n := r.settings.iterations.toNat
    (n ≤ 2 ^ 32 → ∀ (η : Type) [Routine η] (hook : η), KeptOrNegated (r.history hook) →
        ∃ turns, NegatedOn turns (r.history hook) ∧
          (∀ i (bound : i < (r.history hook).length),
            (r.history hook)[i].before.toInt = signedSum turns i ∧
              |(r.history hook)[i].before.toInt| ≤ i * (i - 1) / 2 ∧
              (r.history hook)[i].afterAdd.toInt = (r.history hook)[i].afterHook.toInt + i) ∧
          (∀ message, .internal message ∉ r.reported hook) ∧
          (out.Serves r.sink →
            out.Gained (r.run hook elapsed out).outlets (r.reported hook) r.sink) ∧
          ∀ s, (r.run hook elapsed out).ending = .completed s →
            s.sum.toInt = signedSum turns n ∧ s.metrics.internalFailures = 0) ∧
      (∀ stock : Stock, KeptOrNegated (r.history (stock.build : Hook ε)) ∧
        ∃ s, (r.run (stock.build : Hook ε) elapsed out).ending = .completed s ∧
          (n ≤ 2 ^ 32 → s.sum.toInt = signedSum (r.turns stock) n)) ∧
      (2 ^ 32 < n → ∃ s, (r.run (.noop : Hook ε) elapsed out).ending = .completed s ∧
        s.metrics.internalFailures = 1 ∧
        r.reported (.noop : Hook ε) = [.internal ("index addition wrapped " ++
          Text.natural ((n * (n - 1) / 2 + 2 ^ 63) / 2 ^ 64) ++
            " time(s), first at iteration 4294967296")] ∧
        (out.Serves r.sink → out.Gained (r.run (.noop : Hook ε) elapsed out).outlets
          (r.reported (.noop : Hook ε)) r.sink)) := by
  intro n
  refine ⟨?_, ?_, ?_⟩
  · intro fits η _ hook calls
    have length := r.length_history_le hook
    have linked := r.linked_history hook
    have none := not_exceeds_of_keptOrNegated calls fits
    rcases calls.exists_negatedOn with ⟨turns, negated⟩
    refine ⟨turns, negated, ?_, ?_, fun serves => gained_run serves hook elapsed, ?_⟩
    · intro i bound
      have before := linked.before_eq negated bound (by omega)
      refine ⟨before, ?_, linked.afterAdd_eq negated bound (by omega)⟩
      rw [before]
      exact abs_signedSum_le turns i
    · intro message member
      have assertion := assertions_of_not_exceeding valid none _ member
      cases assertion
    · intro s completed
      rcases returned_of_completed completed with ⟨p, returned, rfl⟩
      constructor
      · exact toInt_eq_signedSum (sum_of_negatedOn valid returned negated) fits
      · exact (internalFailures_of_returned valid returned).trans (if_pos none)
  · intro stock
    rcases negates_stock (ε := ε) valid stock elapsed out with ⟨negated, s, ending, sum, -⟩
    exact ⟨negated.keptOrNegated, s, ending, toInt_eq_signedSum sum⟩
  · intro long
    -- Nothing is negated, so the steps whose additions exceed can be counted.
    have noop : r.Negates (.noop : Hook ε) elapsed out ∅ := negates_stock valid .noop elapsed out
    rcases noop with ⟨kept, s, ending, -⟩
    rcases returned_of_completed ending with ⟨p, returned, rfl⟩
    have report := wrapReport_noop valid returned kept long
    refine ⟨_, ending, ?_, ?_, fun serves => gained_run serves _ elapsed⟩
    · have some : (r.history (.noop : Hook ε)).filter (·.exceeds) ≠ [] := by
        intro empty
        rw [empty] at report
        cases report
      exact (internalFailures_of_returned valid returned).trans (if_neg some)
    · rw [reported_of_returned returned, (silent_of_forgoes Hook.forgoes_noop returned).1,
        internalCheck_of_returned valid returned, report]
      rfl

/-- On both sides of the bound, and a script that negates behind the counters and panics in its last
iteration but one. -/
theorem sums_fit_up_to_two_pow_32_at_the_edge :
    let rig (n : UInt64) : Rig Coin := { settings := .withIterations n, coin := .fixed true }
    let script : Script := ⟨"flip", [⟨.among [2, 3], [.negate]⟩, ⟨.among [4], [.panic "stop"]⟩]⟩
    KeptOrNegated ((rig 6).history script) ∧ ((rig 6).history script).length = 4 ∧
      (∀ message, .internal message ∉ (rig 6).reported script) ∧
      (∃ s, ((rig 4294967296).run (.noop : Hook Script) {} {}).ending = .completed s ∧
        s.sum.toInt = 2 ^ 63 - 2 ^ 31) ∧
      (rig 4294967297).reported (.noop : Hook Script) = [.internal
        "index addition wrapped 1 time(s), first at iteration 4294967296"] := by
  intro rig script
  have valid (n : UInt64) (h : n ≤ Settings.maxIterations) : (rig n).settings.problem? = none :=
    Settings.problem?_withIterations h
  have calls : KeptOrNegated ((rig 6).history script) := by
    unfold TraceStep.KeptOrNegated
    decide
  rcases sums_fit_up_to_two_pow_32 (ε := Script) (rig 6) (valid 6 (by decide)) {} {} with
    ⟨small, -⟩
  rcases small (by decide) Script script calls with ⟨-, -, -, silent, -⟩
  rcases sums_fit_up_to_two_pow_32 (ε := Script) (rig 4294967296) (valid _ (by decide)) {} {} with
    ⟨-, stock, -⟩
  rcases stock .noop with ⟨-, s, ending, sum⟩
  rcases sums_fit_up_to_two_pow_32 (ε := Script) (rig 4294967297) (valid _ (by decide)) {} {} with
    ⟨-, -, long⟩
  rcases long (by decide) with ⟨-, -, -, reported, -⟩
  refine ⟨calls, by decide, silent, ⟨s, ending, ?_⟩, reported.trans (by decide)⟩
  rw [sum (by decide), turns, signedSum_empty]
  decide

end Rig

end HookRig
