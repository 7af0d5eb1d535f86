import HookRig.Proofs.Restraint
import HookRig.Proofs.SameTurns
import HookRig.Proofs.StockRuns

/-! # The sign check

A hook that negates at every call finds half the index at each of them. From the second index on
that is positive, so what it leaves is negative: a check of the sign fails in every iteration but
the first two. No sum gets large, however long the run.
-/

namespace HookRig

theorem toInt_neg_eq {x : Int64} (h : -2 ^ 63 < x.toInt) : (-x).toInt = -x.toInt := by
  have high := x.toInt_lt
  rw [Int64.toInt_neg, Int.bmod_def]
  split <;> omega

theorem Text.integer_neg {n : Nat} (positive : 0 < n) :
    Text.integer (-(n : Int)) = "-" ++ Text.natural n := by
  cases n with
  | zero => omega
  | succ n => rfl

def Diagnostic.negative (i : Nat) : Diagnostic :=
  .assertion (.ofNat i) "sign-check" ("sum -" ++ Text.natural (i / 2) ++ " is negative")

def Diagnostic.negatives (n : Nat) : List Diagnostic := (List.range' 2 (n - 2)).map negative

theorem Diagnostic.negatives_succ (n : Nat) :
    negatives (n + 1) = negatives n ++ if n < 2 then [] else [negative n] := by
  unfold negatives
  by_cases early : n < 2
  · simp [early, show n + 1 - 2 = 0 by omega, show n - 2 = 0 by omega]
  · rw [if_neg early, show n + 1 - 2 = (n - 2) + 1 by omega, List.range'_1_concat, List.map_append,
      show 2 + (n - 2) = n by omega]
    rfl

theorem complaint_of_half {x : Int64} {n : Nat} (half : x.toInt = n / 2) :
    complaint (0 ≤ -x) ("sum " ++ Text.integer (-x).toInt ++ " is negative") =
      if n < 2 then [] else ["sum -" ++ Text.natural (n / 2) ++ " is negative"] := by
  have negated : (-x).toInt = -((n / 2 : Nat) : Int) := by
    rw [toInt_neg_eq (by omega), half]
    rfl
  have sign : 0 ≤ -x ↔ n < 2 := by
    rw [Int64.le_iff_toInt_le, negated, Int64.toInt_zero]
    omega
  by_cases early : n < 2
  · simp [complaint, sign, early]
  · have text : "sum " ++ Text.integer (-x).toInt = "sum -" ++ Text.natural (n / 2) := by
      rw [negated, Text.integer_neg (by omega), ← String.append_assoc]
      rfl
    rw [text]
    simp [complaint, sign, early]

theorem Hook.signCheck_of_half {ε κ : Type} [Routine ε] [CoinSource κ] {b : Bench κ Ledger}
    {n : Nat} (half : b.sum.toInt = n / 2) :
    ∃ c, b.callAs "sign-check" (Hook.signCheck : Hook ε) (.ofNat n) = (.returned .signCheck, c) ∧
      c.sum = -b.sum ∧ Bench.Reported ⟨"sign-check", .ofNat n⟩
        (if n < 2 then [] else ["sum -" ++ Text.natural (n / 2) ++ " is negative"]) b c := by
  let site : Site := ⟨"sign-check", .ofNat n⟩
  have turned := (b.turned_of_choice true).check site (0 ≤ -b.sum)
    ("sum " ++ Text.integer (-b.sum).toInt ++ " is negative")
  have reported := b.negate.countNegation.reported_check site (0 ≤ -b.sum)
    ("sum " ++ Text.integer (-b.sum).toInt ++ " is negative")
  rw [complaint_of_half half] at reported
  refine ⟨_, ?_, turned.sum, reported.diagnostics, reported.failures⟩
  change (Hook.signCheck : Hook ε).call.run site b = _
  rw [call]
  rfl

namespace Progress

variable {κ ε : Type}

/-- The loop of the sign check: before each iteration the sum is half the index. -/
structure Alternates (p : Progress κ Ledger (Hook ε)) : Prop where
  hook : p.hook = .signCheck
  sum : p.bench.sum.toInt = p.calls / 2
  firstWrap : p.firstWrap = none
  diagnostics : p.bench.diagnostics = Diagnostic.negatives p.calls
  failures : p.bench.counters.failures = .ofNat (p.calls - 2)

theorem Alternates.start (coin : κ) :
    (Progress.start (Hook.signCheck : Hook ε) coin {}).Alternates :=
  ⟨rfl, (by decide : (0 : Int64).toInt = (0 : Nat) / 2), rfl, rfl, rfl⟩

/-- Half the index is taken from the index, which leaves half of the next one. -/
theorem Alternates.step [CoinSource κ] [Routine ε] {p : Progress κ Ledger (Hook ε)}
    (h : p.Alternates) (small : p.calls < 2 ^ 63) (keep : Option Nat) :
    ∃ q, p.step "sign-check" keep = .returned q ∧ q.Alternates := by
  rcases Hook.signCheck_of_half (ε := ε) h.sum with ⟨c, called, negated, reported⟩
  rw [← h.hook] at called
  have left : c.accumulator.value.toInt = -(p.calls / 2 : Int) := by
    rw [← h.sum, ← toInt_neg_eq (by rw [h.sum]; omega)]
    exact congrArg Int64.toInt negated
  have fits : c.accumulator.wraps p.index = false := by
    rw [Bool.eq_false_iff, ne_eq, Progress.index, c.accumulator.wraps_iff small, left]
    omega
  have added : (c.accumulator.addIndex p.index).value.toInt = (p.calls + 1 : Nat) / 2 := by
    rw [Progress.index, c.accumulator.toInt_addIndex small, left, if_neg (by omega)]
    omega
  refine ⟨_, step_of_call called, h.hook, added, ?_, ?_, ?_⟩
  · simp [complete, fits, h.firstWrap]
  · have appended := reported.diagnostics
    rw [h.diagnostics] at appended
    rw [calls_complete, Diagnostic.negatives_succ]
    refine appended.trans ?_
    split <;> rfl
  · have counted := reported.failures
    rw [h.failures] at counted
    rw [← UInt64.ofNat_add] at counted
    rw [calls_complete]
    refine counted.trans (congrArg UInt64.ofNat ?_)
    split <;> simp <;> omega

end Progress

namespace Rig

variable {κ ε : Type} [CoinSource κ] [Routine ε]

theorem alternates_of_run (r : Rig κ) (valid : r.settings.problem? = none) :
    ∃ p, r.onLedger (Hook.signCheck : Hook ε) = .returned p ∧ p.Alternates ∧
      p.calls = r.settings.iterations.toNat := by
  have small := Settings.iterations_lt valid
  refine onLedger_returns (Progress.Alternates.start r.coin) ?_
  intro p alternates room
  exact alternates.step (Nat.lt_trans room small) r.settings.keep

/-- What the sign check counts. The checks of the first two iterations are of zero, and hold. -/
theorem metrics_signCheck {r : Rig κ} (valid : r.settings.problem? = none)
    {p : Progress κ Ledger (Hook ε)} (h : r.onLedger .signCheck = .returned p)
    (alternates : p.Alternates) :
    let n := r.settings.iterations
    p.metrics =
      { calls := n, negations := n, draws := 0, assertionFailures := .ofNat (n.toNat - 2) } := by
  intro n
  have calls : p.calls = n.toNat := calls_of_returned h
  have draws := (unflipped_of_forgoes
    (Hook.forgoes_signCheck rfl rfl fun _ _ => rfl) h).2
  have negations : p.bench.counters.negations = n := by
    rcases negates_stock (ε := ε) valid .signCheck {} {} with ⟨-, s, ended, -, count⟩
    rcases returned_of_completed ended with ⟨q, returned, rfl⟩
    cases h.symm.trans returned
    exact UInt64.toNat_inj.mp (count.trans (Finset.card_range n.toNat))
  simp only [Progress.metrics, Progress.internalCheck, calls, draws, negations,
    alternates.failures, alternates.firstWrap, UInt64.ofNat_toNat]
  rfl

/-- With any coin, the sign check ends with half the count for a sum, and fails in each iteration
but the first two. -/
theorem sign_check_fails_from_two_on (r : Rig κ) (valid : r.settings.problem? = none)
    (elapsed : Elapsed) (out : Outlets) :
    let n := r.settings.iterations.toNat
    let after := r.run (Hook.signCheck : Hook ε) elapsed out
    ∃ s, after.ending = .completed s ∧ s.sum.toInt = n / 2 ∧
      s.metrics = { calls := r.settings.iterations, negations := r.settings.iterations, draws := 0
                    assertionFailures := .ofNat (n - 2), internalFailures := 0 } ∧
      (out.Serves r.sink → out.Gained after.outlets (Diagnostic.negatives n) r.sink) ∧
      ∀ (κ' : Type) [CoinSource κ'] (q : Rig κ') (elapsed' : Elapsed) (out' : Outlets),
        q.settings = r.settings →
          ∃ t, (q.run (Hook.antiOp : Hook ε) elapsed' out').ending = .completed t ∧
            s.SameWork t := by
  intro n after
  rcases r.alternates_of_run (ε := ε) valid with ⟨p, returned, alternates, counted⟩
  have calls : p.calls = n := counted
  refine ⟨r.summary p elapsed, completed_of_returned returned elapsed out, ?_,
    metrics_signCheck valid returned alternates, ?_, ?_⟩
  · rw [← calls]
    exact alternates.sum
  · intro serves
    have gained := gained_run serves (Hook.signCheck : Hook ε) elapsed
    have told : r.reported (Hook.signCheck : Hook ε) = Diagnostic.negatives n := by
      rw [reported_of_returned returned, alternates.diagnostics, calls, Progress.internalCheck,
        alternates.firstWrap]
      exact List.append_nil _
    rwa [told] at gained
  · intro κ' _ q elapsed' out' settings
    have checked : r.Negates (Hook.signCheck : Hook ε) elapsed out (r.turns .signCheck) :=
      negates_stock valid .signCheck elapsed out
    have negated : q.Negates (Hook.antiOp : Hook ε) elapsed' out' (q.turns .antiOp) :=
      negates_stock (settings ▸ valid) .antiOp elapsed' out'
    have turns : q.turns .antiOp = r.turns .signCheck := by rw [turns, turns, settings]
    rw [turns] at negated
    rcases sameWork_of_negates valid settings checked negated with
      ⟨p', b, returned', ended, same, -⟩
    cases returned.symm.trans returned'
    exact ⟨q.summary b elapsed', completed_of_returned ended elapsed' out', same⟩

/-- Four iterations, with one diagnostic in the buffer from before. -/
theorem sign_check_fails_from_two_on_below_four :
    let settings : Settings := { iterations := 4, recordTrace := true, traceLimit := 3 }
    let r : Rig ScriptedCoin := { settings, coin := ScriptedCoin.ofInts [1], sink := .buffer 0 }
    let out : Outlets := { buffers := ({} : Buffers).fresh.report 0 (.internal "earlier") }
    let after := r.run (Hook.signCheck : Hook Script) {} out
    settings.problem? = none ∧
      after.outlets.buffers.diagnostics 0 = [.internal "earlier",
        .assertion (.ofNat 2) "sign-check" "sum -1 is negative",
        .assertion (.ofNat 3) "sign-check" "sum -1 is negative"] ∧
      ∃ s, after.ending = .completed s ∧ s.sum.toInt = 2 ∧ s.metrics.assertionFailures = 2 := by
  intro settings r out after
  have valid : settings.problem? = none := by decide +kernel
  rcases sign_check_fails_from_two_on (ε := Script) r valid {} out with
    ⟨s, ended, sum, metrics, gained, -⟩
  refine ⟨valid, ?_, s, ended, sum.trans (by decide), congrArg Metrics.assertionFailures metrics⟩
  exact (gained ⟨_, rfl, by decide⟩).trans (by decide +kernel)

end Rig

end HookRig
