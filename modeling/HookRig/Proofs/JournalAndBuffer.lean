import HookRig.Hook.Script
import HookRig.Proofs.Transcript

/-! # The journal and a buffer

A run can write its diagnostics to the journal or keep them in a buffer. Either way there are
the same diagnostics in the same order: what a buffer gains is what the journal is warned of,
between the record of the start of the run and the record of its end.
-/

namespace HookRig

namespace Threshold

theorem keeps_append (t : Threshold) (first rest : List Record) :
    t.keeps (first ++ rest) = t.keeps first ++ t.keeps rest :=
  List.filter_append ..

/-- A journal that keeps records of all levels keeps whatever is made. -/
theorem keeps_of_all {t : Threshold} (all : ∀ level, t.admits level = true) (made : List Record) :
    t.keeps made = made :=
  List.filter_eq_self.mpr fun e _ => all e.level

end Threshold

theorem Outlets.threshold_receiveAll (out : Outlets) (sink : Sink) (ds : List Diagnostic) :
    (Receiver.receiveAll (Delivery.mk sink out) ds).outlets.journal.threshold =
      out.journal.threshold := by
  induction ds generalizing out with
  | nil => rfl
  | cons d ds ih =>
      have rest := ih (out.report d sink)
      cases sink with
      | buffer h => exact rest
      | journal => exact rest.trans (out.journal.threshold_log d.warning)

namespace Rig

variable {κ η : Type} [CoinSource κ] [Routine η]

def endRecord (name : String) (s : Summary) : Record := ⟨.info, target, endText name s⟩

theorem records_of_returned {r : Rig κ} {hook : η} {p : Progress κ Ledger η}
    (h : r.onLedger hook = .returned p) (elapsed : Elapsed) (out : Outlets) :
    (r.run hook elapsed out).outlets.journal.records = out.journal.records ++
      out.journal.threshold.keeps
        (r.startRecord (Routine.name hook) :: r.sink.records (r.reported hook) ++
          [endRecord (Routine.name hook) (r.summary p elapsed)]) := by
  have last := (r.delivered hook out).journal.records_log_keeps
    (endRecord (Routine.name hook) (r.summary p elapsed))
  have same : (r.delivered hook out).journal.threshold = out.journal.threshold := by
    rw [delivered, Outlets.threshold_receiveAll]
    exact out.journal.threshold_log (r.startRecord (Routine.name hook))
  rw [run_of_returned h, Threshold.keeps_append, ← List.append_assoc, ← records_delivered, ← same]
  exact last

/-- The record at the end of a run, which one that panics does not make. -/
def endRecords (name : String) : Ending → List Record
  | .completed s => [endRecord name s]
  | .panicked _ => []

/-- All that a run tells the journal, however it ends. -/
theorem records_run (r : Rig κ) (hook : η) (elapsed : Elapsed) (out : Outlets) :
    (r.run hook elapsed out).outlets.journal.records = out.journal.records ++
      out.journal.threshold.keeps
        (r.startRecord (Routine.name hook) :: r.sink.records (r.reported hook) ++
          endRecords (Routine.name hook) (r.run hook elapsed out).ending) := by
  cases ended : r.onLedger hook with
  | returned p => rw [records_of_returned ended, completed_of_returned ended, endRecords]
  | panicked p message =>
      rw [run_of_panicked ended, endRecords, List.append_nil]
      exact records_delivered r hook out

/-- Every failure that a run counts is reported once. -/
theorem failures_of_returned {r : Rig κ} {hook : η} {p : Progress κ Ledger η}
    (h : r.onLedger hook = .returned p) :
    p.metrics.failures = .ofNat (r.reported hook).length := by
  obtain ⟨-, -, counted⟩ := metrics_of_returned h {}
  have checks := r.diagnostics_onLedger hook {}
  rw [h] at checks
  have length : p.bench.diagnostics.length = (failedChecks (r.transcript hook {})).length :=
    (congrArg List.length checks).trans (List.length_map _)
  rw [reported_of_returned h, List.length_append, length, UInt64.ofNat_add, ← counted]
  rfl

/-- The journal and a buffer tell the same of a run that does not panic, with records of all levels
kept: the journal is warned of what the buffer keeps otherwise, in the same order. -/
theorem journal_tells_what_buffer_keeps (r : Rig κ) (hook : η) (elapsed elapsed' : Elapsed)
    (out out' : Outlets) (handle : Nat)
    (all : ∀ level, out.journal.threshold.admits level = true)
    (all' : ∀ level, out'.journal.threshold.admits level = true)
    (live : out'.buffers.Live handle)
    (calm : ∀ message, ((r.withSink .journal).run hook elapsed out).ending ≠ .panicked message) :
    let name := Routine.name hook
    let logged := (r.withSink .journal).run hook elapsed out
    let kept := (r.withSink (.buffer handle)).run hook elapsed' out'
    let first : Record := ⟨.debug, "artbench_engine::harness",
      "running hook '" ++ name ++ "' for " ++
      Text.natural r.settings.iterations.toNat ++ " iterations"⟩
    let last (s : Summary) : Record := ⟨.info, "artbench_engine::harness", s.text ++ " [hook=" ++
      name ++ ", negations=" ++ Text.natural s.metrics.negations.toNat ++ ", failures=" ++
      Text.natural s.metrics.failures.toNat ++ ", " ++ s.elapsed.toBinary64.sixPlaces ++ "s]"⟩
    ∃ (s : Summary) (ds : List Diagnostic),
      logged.ending = .completed s ∧ kept.ending = .completed { s with elapsed := elapsed' } ∧
      kept.outlets.buffers.diagnostics handle = out'.buffers.diagnostics handle ++ ds ∧
      logged.outlets.journal.records = out.journal.records ++
        (first :: ds.map (fun d => ⟨.warn, "artbench::assert", d.text⟩) ++ [last s]) ∧
      s.metrics.failures = .ofNat ds.length ∧
      (ds.length < UInt64.size → s.metrics.failures.toNat = ds.length) ∧
      kept.outlets.journal.records =
        out'.journal.records ++ [first, last { s with elapsed := elapsed' }] := by
  intro name logged kept first last
  -- The loop does not depend on the sink, so both runs end with it.
  cases ended : r.onLedger hook with
  | panicked p message =>
      have panicked : logged.ending = .panicked message := by
        have stopped := run_of_panicked (r := r.withSink .journal) ended elapsed out
        rw [show logged = _ from stopped]
      exact absurd panicked (calm message)
  | returned p =>
      have returned : (r.withSink .journal).onLedger hook = .returned p := ended
      have returned' : (r.withSink (.buffer handle)).onLedger hook = .returned p := ended
      have gained : out'.Gained kept.outlets (r.reported hook) (.buffer handle) :=
        gained_run (r := r.withSink (.buffer handle)) live hook elapsed'
      have told := records_of_returned returned elapsed out
      have told' := records_of_returned returned' elapsed' out'
      rw [Threshold.keeps_of_all all] at told
      rw [Threshold.keeps_of_all all'] at told'
      have failures := failures_of_returned ended
      refine ⟨r.summary p elapsed, r.reported hook, completed_of_returned returned elapsed out,
        completed_of_returned returned' elapsed' out', gained, told, failures, ?_, told'⟩
      intro fits
      change p.metrics.failures.toNat = _
      rw [failures, UInt64.toNat_ofNat_of_lt' fits]

/-- A chain whose checks fail and whose index additions wrap, with a record and a diagnostic from
before. -/
theorem journal_tells_what_buffer_keeps_wrapping :
    let r : Rig Coin := { settings := .withIterations 3, coin := .fixed true, phase := .running }
    let saturate : Script := ⟨"saturate", [⟨.among [1], [.store Int64.maxValue]⟩]⟩
    let hook : Hook Script := .chain "outer" [.failing 2, .nondetAntiOp, .custom saturate]
    let out : Outlets := { journal := ({} : Journal).log ⟨.error, "before", "an error"⟩ }
    let out' : Outlets := { buffers := ({} : Buffers).fresh.report 0 (.internal "before") }
    (∀ level, out.journal.threshold.admits level = true) ∧ out'.buffers.Live 0 ∧
      (∀ message, ((r.withSink .journal).run hook {} out).ending ≠ .panicked message) ∧
      ∃ (s : Summary) (ds : List Diagnostic) (first last : Record),
        ((r.withSink .journal).run hook {} out).ending = .completed s ∧
        s.metrics.failures = 3 ∧ s.metrics.failures.toNat = ds.length ∧
        ((r.withSink (.buffer 0)).run hook ⟨2, 0⟩ out').outlets.buffers.diagnostics 0 =
          out'.buffers.diagnostics 0 ++ ds ∧
        ((r.withSink .journal).run hook {} out).outlets.journal.records =
          out.journal.records ++
            (first :: ds.map (fun d => ⟨.warn, "artbench::assert", d.text⟩) ++ [last]) := by
  intro r saturate hook out out'
  have all : ∀ level, out.journal.threshold.admits level = true := by
    intro level
    cases level <;> rfl
  have live : out'.buffers.Live 0 := ⟨0, rfl, by decide⟩
  have failures : ((r.withSink .journal).run hook {} out).ending.summary?.map
      (·.metrics.failures) = some 3 := by decide +kernel
  have calm : ∀ message, ((r.withSink .journal).run hook {} out).ending ≠ .panicked message := by
    intro message panicked
    rw [panicked] at failures
    cases failures
  rcases journal_tells_what_buffer_keeps r hook {} ⟨2, 0⟩ out out' 0 all all live calm with
    ⟨s, ds, ended, -, gained, told, -, count, -⟩
  rw [ended] at failures
  have kept : (((r.withSink (.buffer 0)).run hook ⟨2, 0⟩ out').outlets.buffers.diagnostics
      0).length < UInt64.size := by decide +kernel
  rw [gained, List.length_append] at kept
  exact ⟨all, live, calm, s, ds, _, _, ended, Option.some.inj failures,
    count (Nat.lt_of_le_of_lt (Nat.le_add_left _ _) kept), gained, told⟩

end Rig

end HookRig
