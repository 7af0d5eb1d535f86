import HookRig.Hook.Script
import HookRig.Proofs.Indices
import HookRig.Proofs.Sinks

/-! # Runs on a used rig

Whatever was done with a rig since it was built, it has the settings it was built from,
and its phase tells how the last run ended. The next run starts afresh: it does what it
would do on a new rig with the same settings that is given the present coin. The sum, the
counters, the wraps and the trace of earlier runs leave nothing behind, and neither does
the place where a panic stopped one of them.
-/

namespace HookRig

def Ending.timed (elapsed : Elapsed) : Ending → Ending
  | .completed s => .completed { s with elapsed }
  | .panicked message => .panicked message

def Phase.after (endings : List Ending) : Phase :=
  match endings.getLast? with
  | none => .idle
  | some (.panicked _) => .running
  | some (.completed _) => .done

theorem Phase.after_iff (endings : List Ending) :
    (after endings = .idle ↔ endings = []) ∧
      (after endings = .running ↔ ∃ message, endings.getLast? = some (.panicked message)) ∧
      (after endings = .done ↔ ∃ s, endings.getLast? = some (.completed s)) := by
  rw [← List.getLast?_eq_none_iff, after]
  cases endings.getLast? with
  | none => simp
  | some last => cases last <;> simp

namespace Rig

/-- What a first rig can become, with the endings of the runs that were started on the way.
Coins of any kind may be put in, and hooks of any kind may be run; the outlets may be
in any state when a run starts. -/
inductive Used (first : Rig Coin) : (κ : Type) → Rig κ → List Ending → Prop
  | new : Used first Coin first []
  | run {κ η : Type} [CoinSource κ] [Routine η] {r : Rig κ} {endings : List Ending}
      (earlier : Used first κ r endings) (hook : η) (elapsed : Elapsed) (out : Outlets) :
      Used first κ (r.run hook elapsed out).rig (endings ++ [(r.run hook elapsed out).ending])
  | withCoin {κ κ' : Type} {r : Rig κ} {endings : List Ending} (earlier : Used first κ r endings)
      (coin : κ') : Used first κ' (r.withCoin coin) endings
  | withSink {κ : Type} {r : Rig κ} {endings : List Ending} (earlier : Used first κ r endings)
      (sink : Sink) : Used first κ (r.withSink sink) endings

variable {κ η : Type}

theorem new_eq_ok {s : Settings} {r : Rig Coin} (built : Rig.new s = .ok r) :
    s.problem? = none ∧ r = { settings := s, coin := settingsCoin s } := by
  unfold Rig.new ofSettings at built
  split at built
  · cases built
  case h_2 accepted =>
    cases built
    exact ⟨accepted, rfl⟩

theorem new_of_valid {s : Settings} (valid : s.problem? = none) :
    Rig.new s = .ok { settings := s, coin := settingsCoin s } := by
  rw [Rig.new, ofSettings, valid]

theorem new_of_problem {s : Settings} {problem : Settings.Problem}
    (refused : s.problem? = some problem) : Rig.new s = .error problem := by
  rw [Rig.new, ofSettings, refused]

theorem settings_of_new {settings : Settings} {r : Rig Coin} (h : Rig.new settings = .ok r) :
    r.settings = settings ∧ r.phase = .idle := by
  obtain ⟨-, rfl⟩ := new_eq_ok h
  exact ⟨rfl, rfl⟩

section

variable [CoinSource κ] [Routine η]

/-- A run keeps the settings and the sink, and its ending decides the phase. -/
theorem rig_run (r : Rig κ) (hook : η) (elapsed : Elapsed) (out : Outlets) :
    (r.run hook elapsed out).rig.settings = r.settings ∧
      (r.run hook elapsed out).rig.sink = r.sink ∧
      (r.run hook elapsed out).rig.phase = Phase.after [(r.run hook elapsed out).ending] := by
  cases ledger : r.onLedger hook with
  | returned p =>
      rw [run_of_returned ledger]
      exact ⟨rfl, rfl, rfl⟩
  | panicked p message =>
      rw [run_of_panicked ledger]
      exact ⟨rfl, rfl, rfl⟩

end

theorem Used.state {first : Rig Coin} (idle : first.phase = .idle) {r : Rig κ}
    {endings : List Ending} (used : Used first κ r endings) :
    r.settings = first.settings ∧ r.phase = Phase.after endings := by
  induction used with
  | new => exact ⟨rfl, idle⟩
  | @run κ η _ _ r endings earlier hook elapsed out ih =>
      obtain ⟨settings, -, phase⟩ := rig_run r hook elapsed out
      refine ⟨settings.trans ih.1, phase.trans ?_⟩
      simp [Phase.after]
  | withCoin earlier coin ih => exact ih
  | withSink earlier sink ih => exact ih

variable [CoinSource κ] [Routine η]

section

variable {r r' : Rig κ} (settings : r.settings = r'.settings) (coin : r.coin = r'.coin)

include settings coin

theorem onLedger_congr (hook : η) : r.onLedger hook = r'.onLedger hook := by
  unfold onLedger loop
  rw [settings, coin]

theorem reported_congr (hook : η) : r.reported hook = r'.reported hook := by
  unfold reported
  rw [onLedger_congr settings coin]

/-- A run depends on the settings and the coin of its rig and on nothing else. -/
theorem run_congr (hook : η) (elapsed elapsed' : Elapsed) (out out' : Outlets) :
    (r.run hook elapsed out).ending.timed elapsed' = (r'.run hook elapsed' out').ending ∧
      (r.run hook elapsed out).hook = (r'.run hook elapsed' out').hook ∧
      (r.run hook elapsed out).rig.coin = (r'.run hook elapsed' out').rig.coin ∧
      (r.run hook elapsed out).notes = (r'.run hook elapsed' out').notes := by
  have same := onLedger_congr settings coin hook
  cases ledger : r.onLedger hook with
  | returned p =>
      have ledger' : r'.onLedger hook = .returned p := same ▸ ledger
      rw [run_of_returned ledger, run_of_returned ledger']
      simp [Ending.timed, summary, settings]
  | panicked p message =>
      have ledger' : r'.onLedger hook = .panicked p message := same ▸ ledger
      rw [run_of_panicked ledger, run_of_panicked ledger']
      simp [Ending.timed]

end

/-- After any use, a rig runs a hook as a new rig with the present coin does, and its phase tells
how the last run ended. -/
theorem rerun_starts_afresh {settings : Settings} {first : Rig Coin}
    (built : Rig.new settings = .ok first) {r : Rig κ} {endings : List Ending}
    (used : Used first κ r endings) :
    r.settings = settings ∧ (r.phase = .idle ↔ endings = []) ∧
      (r.phase = .running ↔ ∃ message, endings.getLast? = some (.panicked message)) ∧
      (r.phase = .done ↔ ∃ s, endings.getLast? = some (.completed s)) ∧
      ∀ (η : Type) [Routine η] (hook : η) (elapsed elapsed' : Elapsed) (out out' : Outlets)
        (sink : Sink),
        let next := r.run hook elapsed out
        let fresh := ((first.withCoin r.coin).withSink sink).run hook elapsed' out'
        next.ending.timed elapsed' = fresh.ending ∧ next.hook = fresh.hook ∧
          next.rig.coin = fresh.rig.coin ∧ next.notes = fresh.notes ∧
          ∃ added : List Diagnostic,
            (out.Serves r.sink → out.Gained next.outlets added r.sink) ∧
            (out'.Serves sink → out'.Gained fresh.outlets added sink) := by
  obtain ⟨same, idle⟩ := settings_of_new built
  obtain ⟨kept, phase⟩ := used.state idle
  obtain ⟨untouched, stopped, completed⟩ := Phase.after_iff endings
  rw [phase]
  refine ⟨kept.trans same, untouched, stopped, completed, ?_⟩
  intro η _ hook elapsed elapsed' out out' sink next fresh
  let other : Rig κ := (first.withCoin r.coin).withSink sink
  have settings' : r.settings = other.settings := kept
  have coin' : r.coin = other.coin := rfl
  obtain ⟨ending, hooks, coins, notes⟩ := run_congr settings' coin' hook elapsed elapsed' out out'
  refine ⟨ending, hooks, coins, notes, r.reported hook, ?_, ?_⟩
  · intro serves
    exact gained_run serves hook elapsed
  · intro serves
    rw [reported_congr settings' coin' hook]
    exact gained_run (r := other) serves hook elapsed'

/-- A rig that was given another coin, stopped by a panic after one draw in iteration one, and
given a buffer that is not empty. -/
theorem rerun_starts_afresh_after_panic :
    let settings : Settings := .withIterations 3
    let first : Rig Coin := { settings, coin := settingsCoin settings }
    let stop : Script := ⟨"stop", [⟨.among [1], [.store 7, .draw, .panic "stopped"]⟩]⟩
    let coin : ScriptedCoin := { script := #[false, true] }
    let r := ((first.withCoin coin).run stop {} {}).rig.withSink (.buffer 0)
    let full : Outlets := { buffers := ({} : Buffers).fresh.report 0 (.internal "before") }
    let empty : Outlets := { buffers := ({} : Buffers).fresh }
    let hook : Hook Script := .chain "outer" [.nondetAntiOp, .failing 2]
    Rig.new settings = .ok first ∧ r.phase = .running ∧ r.coin.draws = 1 ∧
      (r.run hook {} full).ending.timed {} =
        (((first.withCoin r.coin).withSink (.buffer 0)).run hook {} empty).ending ∧
      ∃ added, added.length = 2 ∧
        (r.run hook {} full).outlets.buffers.diagnostics 0 = .internal "before" :: added ∧
        (((first.withCoin r.coin).withSink (.buffer 0)).run hook {}
          empty).outlets.buffers.diagnostics 0 = added := by
  intro settings first stop coin r full empty hook
  have valid : settings.problem? = none := Settings.problem?_withIterations (by decide)
  have built : Rig.new settings = .ok first := by
    unfold Rig.new ofSettings
    rw [valid]
  have used : Used first ScriptedCoin r [.panicked "stopped"] :=
    ((Used.new.withCoin coin).run stop {} {}).withSink (.buffer 0)
  obtain ⟨-, -, running, -, next⟩ := rerun_starts_afresh built used
  obtain ⟨ending, -, -, -, added, here, there⟩ :=
    next (Hook Script) hook {} {} full empty (.buffer 0)
  have gained : (r.run hook {} full).outlets.buffers.diagnostics 0 = .internal "before" :: added :=
    here ⟨0, rfl, by decide⟩
  have length : ((r.run hook {} full).outlets.buffers.diagnostics 0).length = 3 := by decide
  rw [gained, List.length_cons] at length
  exact ⟨built, running.mpr ⟨"stopped", rfl⟩, rfl, ending, added, Nat.succ.inj length, gained,
    there ⟨0, rfl, by decide⟩⟩

end Rig

end HookRig
