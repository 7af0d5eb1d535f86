import HookRig.Proofs.Restraint
import HookRig.Proofs.SameTurns
import HookRig.Proofs.StockRuns
import Mathlib.Algebra.Order.Floor.Div

/-! # Failures at regular intervals

A hook that fails a check every so often fails at the multiples of its period, which are known
from the count of the run alone. That is all it does: the sums are those of a run without a
hook, and so is what the run finds when it checks itself.
-/

namespace HookRig

def multiplesBelow (p n : ℕ) : List ℕ := (List.range n).filter (p ∣ ·)

theorem multiplesBelow_succ (p n : ℕ) :
    multiplesBelow p (n + 1) = multiplesBelow p n ++ if p ∣ n then [n] else [] := by
  rw [multiplesBelow, List.range_succ, List.filter_append]
  by_cases multiple : p ∣ n <;> simp [multiplesBelow, multiple]

theorem ceilDiv_succ {p : ℕ} (positive : 0 < p) (n : ℕ) :
    (n + 1) ⌈/⌉ p = n ⌈/⌉ p + if p ∣ n then 1 else 0 := by
  have step := Nat.succ_div (a := n + p - 1) (b := p)
  have last : n + p - 1 + 1 = n + p := by omega
  simp only [last, Nat.dvd_add_self_right] at step
  rw [Nat.ceilDiv_eq_add_pred_div, Nat.ceilDiv_eq_add_pred_div, ← step,
    show n + 1 + p - 1 = n + p by omega]

theorem ceilDiv_mul_of_dvd {p n : ℕ} (positive : 0 < p) (multiple : p ∣ n) : n ⌈/⌉ p * p = n := by
  obtain ⟨k, rfl⟩ := multiple
  have rest : (p - 1) / p = 0 := Nat.div_eq_of_lt (by omega)
  rw [Nat.ceilDiv_eq_add_pred_div, Nat.add_sub_assoc positive, Nat.mul_add_div positive, rest,
    Nat.add_zero, Nat.mul_comm]

theorem multiplesBelow_eq_map {p : ℕ} (positive : 0 < p) (n : ℕ) :
    multiplesBelow p n = (List.range (n ⌈/⌉ p)).map (· * p) := by
  induction n with
  | zero => simp [multiplesBelow]
  | succ n ih =>
      rw [multiplesBelow_succ, ih, ceilDiv_succ positive]
      by_cases multiple : p ∣ n
      · rw [if_pos multiple, if_pos multiple, List.range_succ, List.map_append, List.map_singleton,
          ceilDiv_mul_of_dvd positive multiple]
      · rw [if_neg multiple, if_neg multiple, List.append_nil, Nat.add_zero]

theorem length_multiplesBelow {p : ℕ} (positive : 0 < p) (n : ℕ) :
    (multiplesBelow p n).length = n ⌈/⌉ p := by
  rw [multiplesBelow_eq_map positive, List.length_map, List.length_range]

def Diagnostic.deliberate (i : ℕ) : Diagnostic :=
  .assertion (.ofNat i) "failing_check" "deliberate failure"

namespace Hook

theorem toNat_stride (period : UInt64) : (stride period).toNat = max period.toNat 1 := by
  unfold stride
  by_cases zero : period = 0
  · rw [if_pos zero, zero]
    rfl
  · have positive : period.toNat ≠ 0 := fun eq => zero (UInt64.toNat_inj.mp eq)
    rw [if_neg zero]
    omega

theorem failsAt_ofNat (period : UInt64) {n : ℕ} (small : n < 2 ^ 63) :
    failsAt period (.ofNat n) = decide (max period.toNat 1 ∣ n) := by
  have remainder : (Iteration.ofNat n).index % stride period = 0 ↔ max period.toNat 1 ∣ n := by
    rw [← UInt64.toNat_inj, UInt64.toNat_mod, Iteration.toNat_ofNat small, toNat_stride,
      Nat.dvd_iff_mod_eq_zero]
    rfl
  unfold failsAt
  simp only [remainder]

variable {ε κ : Type} [Routine ε] [CoinSource κ]

theorem run_call_failing {σ : Type} [Receiver σ] (period : UInt64) (site : Site) (b : Bench κ σ) :
    (Hook.failing period : Hook ε).call.run site b =
      (.returned (.failing period),
        (b.answer site (.check (!failsAt period site.iteration) "deliberate failure")).2) := by
  rw [call]
  rfl

theorem forgoes_failing {kind : Request → Bool} (iteration : kind .iteration = false)
    (check : ∀ holds message, kind (.check holds message) = false) (period : UInt64) :
    Routine.Forgoes kind (Hook.failing period : Hook ε) := by
  apply forgoes_of_constant <;> rw [call]
  · exact ⟨iteration, fun _ => ⟨check _ _, fun _ => trivial⟩⟩
  · exact fun _ _ => rfl

theorem failing_at (period : UInt64) {n : ℕ} (small : n < 2 ^ 63) (b : Bench κ Ledger) :
    ∃ c, b.callAs "failing_check" (Hook.failing period : Hook ε) (.ofNat n) =
        (.returned (.failing period), c) ∧
      Bench.Reported ⟨"failing_check", .ofNat n⟩
        (if max period.toNat 1 ∣ n then ["deliberate failure"] else []) b c := by
  have said : complaint (!failsAt period (.ofNat n)) "deliberate failure" =
      if max period.toNat 1 ∣ n then ["deliberate failure"] else [] := by
    rw [failsAt_ofNat period small, complaint]
    by_cases multiple : max period.toNat 1 ∣ n <;> simp [multiple]
  rw [← said]
  exact ⟨_, run_call_failing period _ b, b.reported_check _ _ _⟩

end Hook

namespace Progress

variable {κ ε : Type}

structure FailsEvery (period : UInt64) (p : Progress κ Ledger (Hook ε)) : Prop where
  hook : p.hook = .failing period
  diagnostics : p.bench.diagnostics =
    (multiplesBelow (max period.toNat 1) p.calls).map Diagnostic.deliberate
  failures : p.bench.counters.failures =
    .ofNat (multiplesBelow (max period.toNat 1) p.calls).length

theorem FailsEvery.start (period : UInt64) (coin : κ) :
    (Progress.start (Hook.failing period : Hook ε) coin {}).FailsEvery period :=
  ⟨rfl, rfl, rfl⟩

theorem FailsEvery.step [CoinSource κ] [Routine ε] {period : UInt64}
    {p : Progress κ Ledger (Hook ε)} (h : p.FailsEvery period) (small : p.calls < 2 ^ 63)
    (keep : Option ℕ) : ∃ q, p.step "failing_check" keep = .returned q ∧ q.FailsEvery period := by
  rcases Hook.failing_at (ε := ε) period small p.bench with ⟨c, called, reported⟩
  have diagnostics := reported.diagnostics
  have failures := reported.failures
  rw [h.diagnostics] at diagnostics
  rw [h.failures] at failures
  rw [← h.hook] at called
  refine ⟨_, step_of_call called, h.hook, diagnostics.trans ?_, failures.trans ?_⟩
  · rw [calls_complete, multiplesBelow_succ, List.map_append]
    split <;> rfl
  · rw [calls_complete, multiplesBelow_succ, List.length_append, UInt64.ofNat_add]
    split <;> rfl

end Progress

namespace Rig

variable {κ ε : Type} [CoinSource κ] [Routine ε]

theorem failsEvery_of_run (r : Rig κ) (valid : r.settings.problem? = none) (period : UInt64) :
    ∃ p, r.onLedger (Hook.failing period : Hook ε) = .returned p ∧ p.FailsEvery period ∧
      p.calls = r.settings.iterations.toNat := by
  have small := Settings.iterations_lt valid
  refine onLedger_returns (Progress.FailsEvery.start period r.coin) ?_
  intro p fails room
  exact fails.step (Nat.lt_trans room small) r.settings.keep

theorem negates_failing {r : Rig κ} (valid : r.settings.problem? = none) (period : UInt64)
    (elapsed : Elapsed) (out : Outlets) :
    r.Negates (Hook.failing period : Hook ε) elapsed out ∅ := by
  refine negates_never valid ?_ elapsed out
  intro site b
  have same : b.Turned b false := b.turned_of_choice false
  exact ⟨_, Hook.run_call_failing period site b, same.check site _ _⟩

theorem metrics_failing {r : Rig κ} (valid : r.settings.problem? = none) {period : UInt64}
    {p : Progress κ Ledger (Hook ε)} (h : r.onLedger (.failing period) = .returned p)
    (fails : p.FailsEvery period) :
    p.metrics =
      { calls := r.settings.iterations, negations := 0, draws := 0
        assertionFailures := .ofNat (p.calls ⌈/⌉ max period.toNat 1)
        internalFailures := .ofNat p.internalCheck.toList.length } := by
  have draws := (unflipped_of_forgoes (Hook.forgoes_failing rfl (fun _ _ => rfl) period) h).2
  have negations : p.bench.counters.negations = 0 := by
    rcases negates_failing (ε := ε) valid period {} {} with ⟨-, s, ended, -, count⟩
    rcases returned_of_completed ended with ⟨q, returned, rfl⟩
    cases h.symm.trans returned
    exact UInt64.toNat_inj.mp count
  have calls : UInt64.ofNat p.calls = r.settings.iterations :=
    Progress.metrics_calls_of_advance h
  rw [Progress.metrics, calls, draws, negations, fails.failures,
    length_multiplesBelow (Nat.le_max_right _ _)]

/-- With any coin, a hook that fails every so often lets its run complete. Its checks fail at the
multiples of its period, in order and at no other iteration. -/
theorem fails_at_multiples_of_period (r : Rig κ) (valid : r.settings.problem? = none)
    (period : UInt64) (elapsed : Elapsed) (out : Outlets) :
    let n := r.settings.iterations.toNat
    let p := max period.toNat 1
    let after := r.run (Hook.failing period : Hook ε) elapsed out
    Hook.stride period ≠ 0 ∧ (Hook.stride period).toNat = p ∧
      multiplesBelow p n = (List.range (n ⌈/⌉ p)).map (· * p) ∧
      ∃ (s : Summary) (check : Option Diagnostic), after.ending = .completed s ∧
        s.metrics = { calls := r.settings.iterations, negations := 0, draws := 0
                      assertionFailures := .ofNat (n ⌈/⌉ p)
                      internalFailures := .ofNat check.toList.length } ∧
        (∀ d ∈ check, ∃ text, d = .internal text) ∧
        (out.Serves r.sink → out.Gained after.outlets
          ((multiplesBelow p n).map (fun i =>
            .assertion (.ofNat i) "failing_check" "deliberate failure") ++ check.toList) r.sink) ∧
        ∀ (κ' : Type) [CoinSource κ'] (q : Rig κ') (elapsed' : Elapsed) (out' : Outlets),
          q.settings = r.settings →
            let plain := q.run (Hook.noop : Hook ε) elapsed' out'
            ∃ t, plain.ending = .completed t ∧ s.SameWork t ∧
              (out'.Serves q.sink → out'.Gained plain.outlets check.toList q.sink) := by
  intro n p after
  have positive : 0 < p := Nat.le_max_right _ _
  have divisor : (Hook.stride period).toNat = p := Hook.toNat_stride period
  have nonzero : Hook.stride period ≠ 0 := by
    intro zero
    rw [zero] at divisor
    exact positive.ne divisor
  have kept : r.Negates (Hook.failing period : Hook ε) elapsed out ∅ :=
    negates_failing valid period elapsed out
  rcases r.failsEvery_of_run (ε := ε) valid period with ⟨b, returned, fails, calls⟩
  rw [show n = b.calls from calls.symm]
  refine ⟨nonzero, divisor, multiplesBelow_eq_map positive _, r.summary b elapsed, b.internalCheck,
    completed_of_returned returned elapsed out, metrics_failing valid returned fails, ?_, ?_, ?_⟩
  · intro d found
    obtain ⟨first, -, rfl⟩ := Option.map_eq_some_iff.mp found
    exact ⟨_, rfl⟩
  · intro serves
    have gained := gained_run serves (Hook.failing period : Hook ε) elapsed
    rw [reported_of_returned returned, fails.diagnostics] at gained
    exact gained
  · intro κ' _ q elapsed' out' settings plain
    have idle : q.Negates (Hook.noop : Hook ε) elapsed' out' ∅ :=
      negates_stock (settings ▸ valid) .noop elapsed' out'
    rcases sameWork_of_negates valid settings kept idle with ⟨b', c, returned', ended, same, check⟩
    cases returned.symm.trans returned'
    refine ⟨q.summary c elapsed', completed_of_returned ended elapsed' out', same, ?_⟩
    intro serves
    have gained := gained_run serves (Hook.noop : Hook ε) elapsed'
    rw [reported_of_returned ended, (silent_of_forgoes Hook.forgoes_noop ended).1,
      List.nil_append, ← check] at gained
    exact gained

/-- Ten iterations with a period of three, and three with a period of zero. -/
theorem fails_at_multiples_of_period_three :
    let r : Rig Coin := { settings := .withIterations 10, coin := .fixed true, sink := .buffer 0 }
    let r' : Rig Coin := { r with settings := .withIterations 3 }
    let out : Outlets := { buffers := ({} : Buffers).fresh }
    r.settings.problem? = none ∧ r'.settings.problem? = none ∧ Hook.stride 0 ≠ 0 ∧
      (∃ s check, (r.run (Hook.failing 3 : Hook Script) {} out).ending = .completed s ∧
        s.metrics.assertionFailures = 4 ∧
        (r.run (Hook.failing 3 : Hook Script) {} out).outlets.buffers.diagnostics 0 =
          .deliberate 0 :: .deliberate 3 :: .deliberate 6 :: .deliberate 9 :: check) ∧
      ∃ s, (r'.run (Hook.failing 0 : Hook Script) {} out).ending = .completed s ∧
        s.metrics.assertionFailures = 3 := by
  intro r r' out
  have valid : r.settings.problem? = none := Settings.problem?_withIterations (by decide)
  have valid' : r'.settings.problem? = none := Settings.problem?_withIterations (by decide)
  rcases fails_at_multiples_of_period (ε := Script) r valid 3 {} out with
    ⟨-, -, -, s, check, ended, metrics, -, gained, -⟩
  rcases fails_at_multiples_of_period (ε := Script) r' valid' 0 {} out with
    ⟨nonzero, -, -, s', check', ended', metrics', -⟩
  have four : UInt64.ofNat (10 ⌈/⌉ 3) = 4 := by decide
  have three : UInt64.ofNat (3 ⌈/⌉ 1) = 3 := by decide
  exact ⟨valid, valid', nonzero,
    ⟨s, check.toList, ended, (congrArg Metrics.assertionFailures metrics).trans four,
      gained ⟨0, rfl, by decide⟩⟩,
    s', ended', (congrArg Metrics.assertionFailures metrics').trans three⟩

end Rig

end HookRig
