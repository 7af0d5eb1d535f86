import HookRig.Hook.Script
import HookRig.Proofs.Consecutive
import HookRig.Proofs.Negations
import HookRig.Proofs.Restraint

/-! # The monitor does not disturb

All that the monitor does to a run is to draw and to negate when the coin shows one; the rest of a
call reads and checks. A run of it is therefore the run of the hook that draws and negates and
does nothing else: as no check of the monitor fails, not even the counts of failures differ.
-/

namespace HookRig

/-- A program that only reads, checks and notes may come first on one side. -/
theorem Program.Alike.after {α β γ : Type} {R : α → β → Prop} {p : Program γ}
    (idle : p.Forgoes fun r => !r.passive) {f : γ → Program α} {q : Program β}
    (rest : ∀ a, (f a).Alike R q) : (p >>= f).Alike R q := by
  induction p with
  | done a => exact rest a
  | ask r next ih =>
      have passive : r.passive = true := by simpa using idle.1
      exact .left passive fun reply => ih reply (idle.2 reply)

namespace ParityMonitor

theorem idle_observe (m : ParityMonitor) (i : Iteration) (found : Int64) :
    (m.observe i found).Forgoes fun r => !r.passive := by
  unfold observe
  by_cases zero : i = .zero
  · rw [if_pos zero]
    exact ⟨rfl, fun _ => trivial⟩
  · rw [if_neg zero]
    cases m.last with
    | none => trivial
    | some last => exact ⟨rfl, fun _ => ⟨rfl, fun _ => trivial⟩⟩

/-- In any state of the monitor, and whatever its checks find. -/
theorem alike_nondetAntiOp {ε : Type} [Routine ε] (m : ParityMonitor) :
    Routine.Alike m (Hook.nondetAntiOp : Hook ε) := by
  refine ⟨fun _ h => h = .nondetAntiOp, rfl, ?_⟩
  rintro m _ rfl
  change m.call.Alike _ (Hook.call _)
  rw [Hook.call]
  refine .left rfl fun i => .left rfl fun found => ?_
  refine Program.Alike.after (m.idle_observe i found) fun m₁ => ?_
  refine .ask nofun fun side => ?_
  cases side with
  | false => exact .left rfl fun _ => .left rfl fun _ => .done (.returned rfl)
  | true =>
      refine .ask nofun fun _ => ?_
      exact .left rfl fun _ => .left rfl fun _ => .done (.returned rfl)

end ParityMonitor

theorem Progress.internalCheck_cases {κ σ η : Type} (p : Progress κ σ η) :
    p.internalCheck.toList = [] ∨ ∃ message, p.internalCheck.toList = [.internal message] := by
  unfold internalCheck
  cases p.firstWrap with
  | none => exact .inl rfl
  | some first => exact .inr ⟨_, rfl⟩

namespace Rig

variable {κ ε : Type} [CoinSource κ] [Routine ε]

theorem coin_run_monitor {r : Rig κ} (valid : r.settings.problem? = none) (m : ParityMonitor)
    (elapsed : Elapsed) (out : Outlets) :
    (r.run m elapsed out).rig.coin = (flips r.settings.iterations.toNat r.coin).2 := by
  rcases r.watches_of_run valid m with ⟨p, returned, watches, calls⟩
  rw [run_of_returned returned, ← calls]
  exact watches.coin

theorem run_monitor_like {r s : Rig κ} (valid : r.settings.problem? = none)
    (settings : s.settings = r.settings) (coin : s.coin = r.coin) (m : ParityMonitor)
    (elapsed elapsed' : Elapsed) (out out' : Outlets) :
    ∃ a b, (r.run m elapsed out).ending = .completed a ∧
      (s.run (Hook.nondetAntiOp : Hook ε) elapsed' out').ending = .completed b ∧
      a.sum = b.sum ∧ a.trace = b.trace ∧ a.metrics = b.metrics ∧
      ∃ ds, r.reported m = ds ∧ s.reported (Hook.nondetAntiOp : Hook ε) = ds ∧
        (ds = [] ∨ ∃ message, ds = [.internal message]) := by
  rcases r.watches_of_run valid m with ⟨p, returned, watches, -⟩
  rcases onLedger_alike (congrArg Settings.iterations settings) coin
    (m.alike_nondetAntiOp (ε := ε)) with ⟨R, loops⟩
  rw [returned] at loops
  rcases loops.of_returned with ⟨q, returned', alike⟩
  have silent := silent_of_forgoes (Hook.forgoes_nondetAntiOp rfl rfl) returned'
  have check := alike.books.internalCheck
  rcases alike.books.trace with ⟨steps, -, trace, trace'⟩
  have metrics : p.metrics = q.metrics := by
    simp only [Progress.metrics, alike.books.calls, alike.bench.negations, alike.bench.draws,
      watches.failures, silent.2, check]
  refine ⟨r.summary p elapsed, s.summary q elapsed', completed_of_returned returned elapsed out,
    completed_of_returned returned' elapsed' out', ?_, ?_, metrics,
    p.internalCheck.toList, ?_, ?_, p.internalCheck_cases⟩
  · exact congrArg Accumulator.value alike.bench.accumulator
  · simp only [summary, settings, trace, trace']
  · rw [reported_of_returned returned, watches.diagnostics, List.nil_append]
  · rw [reported_of_returned returned', silent.1, List.nil_append, check]

/-- In each of any number of runs in a row, a monitor in any state does and reports what the hook
does that negates when its coin shows one. -/
theorem monitor_does_not_disturb (r s : Rig κ) (valid : r.settings.problem? = none)
    (settings : s.settings = r.settings) (coin : s.coin = r.coin) (monitors : Nat → ParityMonitor)
    (times times' : Nat → Elapsed) (outs outs' : Nat → Outlets) (k : Nat) :
    let watched := r.nthRun monitors times outs k
    let plain := s.nthRun (fun _ => (Hook.nondetAntiOp : Hook ε)) times' outs' k
    ∃ a b, watched.ending = .completed a ∧ plain.ending = .completed b ∧
      a.sum = b.sum ∧ a.trace = b.trace ∧ a.metrics = b.metrics ∧
      watched.rig.coin = plain.rig.coin ∧
      ∃ ds : List Diagnostic, (ds = [] ∨ ∃ message, ds = [.internal message]) ∧
        ((outs k).Serves r.sink → (outs k).Gained watched.outlets ds r.sink) ∧
        ((outs' k).Serves s.sink → (outs' k).Gained plain.outlets ds s.sink) := by
  intro watched plain
  let plains : Nat → Hook ε := fun _ => .nondetAntiOp
  have coins (j : Nat) : (r.afterRuns monitors times outs j).coin =
      (s.afterRuns plains times' outs' j).coin := by
    rw [coin_afterRuns (fun t i same => by rw [coin_run_monitor (same ▸ valid), same]),
      coin_afterRuns (fun t i same => by rw [coin_run_nondetAntiOp, same]), settings, coin]
  rcases r.settings_afterRuns monitors times outs k with ⟨kept, sink⟩
  rcases s.settings_afterRuns plains times' outs' k with ⟨kept', sink'⟩
  rcases run_monitor_like (ε := ε) (kept ▸ valid) (kept'.trans (settings.trans kept.symm))
    (coins k).symm (monitors k) (times k) (times' k) (outs k) (outs' k) with
    ⟨a, b, ended, ended', sum, trace, metrics, ds, told, told', few⟩
  refine ⟨a, b, ended, ended', sum, trace, metrics, coins (k + 1), ds, few, ?_, ?_⟩
  · intro serves
    rw [← sink] at serves ⊢
    exact told ▸ gained_run serves (monitors k) (times k)
  · intro serves
    rw [← sink'] at serves ⊢
    exact told' ▸ gained_run serves (plains k) (times' k)

/-- The second of two runs: a monitor in a stale state at first, and as that run leaves it then. -/
theorem monitor_does_not_disturb_again :
    let settings : Settings := { iterations := 3, recordTrace := true }
    let coin : ScriptedCoin := { script := #[true, false] }
    let r : Rig ScriptedCoin := { settings, coin, sink := .buffer 0, phase := .running }
    let s : Rig ScriptedCoin := { settings, coin }
    let stale : ParityMonitor := { parity := .odd, negations := 6, last := some (.ofNat 7, -3) }
    let monitors (j : Nat) : ParityMonitor := if j = 0 then stale else (r.run stale {} {}).hook
    let plains (_ : Nat) : Hook Script := .nondetAntiOp
    let times (_ : Nat) : Elapsed := {}
    let outs (_ : Nat) : Outlets := { buffers := ({} : Buffers).fresh }
    settings.problem? = none ∧
      (∃ a b, (r.nthRun monitors times outs 1).ending = .completed a ∧
        (s.nthRun plains times outs 1).ending = .completed b ∧ a.sum = b.sum ∧
        a.trace = b.trace ∧ a.metrics = b.metrics) ∧
      (r.nthRun monitors times outs 1).rig.coin = (s.nthRun plains times outs 1).rig.coin ∧
      ∀ d ∈ (r.nthRun monitors times outs 1).outlets.buffers.diagnostics 0,
        d.isAssertion = false := by
  intro settings coin r s stale monitors plains times outs
  have valid : settings.problem? = none := by decide +kernel
  rcases monitor_does_not_disturb (ε := Script) r s valid rfl rfl monitors times times outs outs
    1 with ⟨a, b, ended, ended', sum, trace, metrics, coins, ds, few, gained, -⟩
  have told : (r.nthRun monitors times outs 1).outlets.buffers.diagnostics 0 = [] ++ ds :=
    gained ⟨0, rfl, by decide⟩
  refine ⟨valid, ⟨a, b, ended, ended', sum, trace, metrics⟩, coins, ?_⟩
  rw [told, List.nil_append]
  rcases few with rfl | ⟨message, rfl⟩
  · simp
  · simp [Diagnostic.isAssertion]

end Rig

end HookRig
