import HookRig.Proofs.Agreement

/-! # What the sink of a run gains

A run adds its diagnostics to its sink, behind whatever is there and in the order of
their reports. A buffer holds them as they are. A journal that keeps warnings holds one
warning for each, besides the records that the run makes at its start and its end.
-/

namespace HookRig

namespace Buffers

def Live (b : Buffers) (h : Nat) : Prop :=
  ∃ buffer, b.owner[h]? = some buffer ∧ buffer < b.contents.size

variable {b : Buffers} {h : Nat}

theorem owner_report (g : Nat) (d : Diagnostic) : (b.report g d).owner = b.owner := by
  unfold report
  split <;> rfl

theorem Live.report (live : b.Live h) (g : Nat) (d : Diagnostic) : (b.report g d).Live h := by
  have size : (b.report g d).contents.size = b.contents.size := by
    unfold Buffers.report
    split <;> simp
  obtain ⟨buffer, owned, bound⟩ := live
  exact ⟨buffer, by rw [owner_report, owned], by rw [size]; exact bound⟩

theorem diagnostics_report_through {g : Nat} (live : b.Live g) (live' : b.Live h)
    (d : Diagnostic) :
    (b.report g d).diagnostics h =
      b.diagnostics h ++ if b.owner[g]? = b.owner[h]? then [d] else [] := by
  obtain ⟨buffer, owned, bound⟩ := live
  obtain ⟨buffer', owned', bound'⟩ := live'
  by_cases same : buffer = buffer'
  · subst same
    simp [Buffers.report, diagnostics, owned, owned', Array.getElem?_modify,
      Array.getElem?_eq_getElem bound]
  · simp [Buffers.report, diagnostics, owned, owned', Array.getElem?_modify, same]

theorem diagnostics_report (live : b.Live h) (d : Diagnostic) :
    (b.report h d).diagnostics h = b.diagnostics h ++ [d] := by
  rw [diagnostics_report_through live live, if_pos rfl]

end Buffers

def Diagnostic.warning (d : Diagnostic) : Record := ⟨.warn, "artbench::assert", d.text⟩

def Sink.records : Sink → List Diagnostic → List Record
  | .journal, ds => ds.map Diagnostic.warning
  | .buffer _, _ => []

theorem Sink.level_records (sink : Sink) (ds : List Diagnostic) :
    ∀ e ∈ sink.records ds, e.level = .warn := by
  intro e member
  cases sink with
  | buffer h => cases member
  | journal =>
      obtain ⟨d, -, rfl⟩ := List.mem_map.mp member
      rfl

def Threshold.keeps (t : Threshold) (made : List Record) : List Record :=
  made.filter (t.admits ·.level)

namespace Journal

theorem records_log_keeps (j : Journal) (r : Record) :
    (j.log r).records = j.records ++ j.threshold.keeps [r] := by
  rw [records_log, Threshold.keeps]
  split <;> simp [*]

@[simp] theorem threshold_log (j : Journal) (r : Record) : (j.log r).threshold = j.threshold := by
  unfold log
  split <;> rfl

def warnings (j : Journal) : List Record := j.records.filter (·.target = "artbench::assert")

theorem warnings_log_of_other (j : Journal) {r : Record} (other : r.target ≠ "artbench::assert") :
    (j.log r).warnings = j.warnings := by
  unfold warnings
  rw [records_log, List.filter_append]
  split <;> simp [other]

theorem warnings_log (j : Journal) (d : Diagnostic) :
    (j.log d.warning).warnings =
      j.warnings ++ if j.threshold.admits .warn then [d.warning] else [] := by
  have level : d.warning.level = .warn := rfl
  have target : d.warning.target = "artbench::assert" := rfl
  unfold warnings
  rw [records_log, List.filter_append, level]
  split <;> simp [target]

end Journal

namespace Outlets

/-- A buffer can be written to only if it exists. -/
def Serves (o : Outlets) : Sink → Prop
  | .journal => True
  | .buffer h => o.buffers.Live h

/-- All that a sink gained between two states of the outlets. -/
def Gained (before after : Outlets) (ds : List Diagnostic) : Sink → Prop
  | .journal => after.journal.warnings = before.journal.warnings ++
      if before.journal.threshold.admits .warn then ds.map Diagnostic.warning else []
  | .buffer h => after.buffers.diagnostics h = before.buffers.diagnostics h ++ ds

theorem diagnostics_receiveAll {out : Outlets} {h : Nat} (live : out.buffers.Live h)
    (ds : List Diagnostic) :
    (Receiver.receiveAll (Delivery.mk (.buffer h) out) ds).outlets.buffers.diagnostics h =
      out.buffers.diagnostics h ++ ds := by
  induction ds generalizing out with
  | nil => simp [Receiver.receiveAll]
  | cons d ds ih =>
      let next : Outlets := out.report d (.buffer h)
      have rest :
          (Receiver.receiveAll (Delivery.mk (.buffer h) next) ds).outlets.buffers.diagnostics h =
            (out.buffers.report h d).diagnostics h ++ ds := ih (live.report h d)
      have first := Buffers.diagnostics_report live d
      calc
        (Receiver.receiveAll (Delivery.mk (.buffer h) out) (d :: ds)).outlets.buffers.diagnostics h
        _ = (out.buffers.report h d).diagnostics h ++ ds := rest
        _ = out.buffers.diagnostics h ++ d :: ds := by rw [first, List.append_assoc]; rfl

theorem warnings_receiveAll (out : Outlets) (ds : List Diagnostic) :
    (Receiver.receiveAll (Delivery.mk .journal out) ds).outlets.journal.warnings =
      out.journal.warnings ++
        if out.journal.threshold.admits .warn then ds.map Diagnostic.warning else [] := by
  induction ds generalizing out with
  | nil => simp [Receiver.receiveAll]
  | cons d ds ih =>
      have rest := ih (out.report d .journal)
      have first : (out.report d .journal).journal.warnings = _ := out.journal.warnings_log d
      have same : (out.report d .journal).journal.threshold = out.journal.threshold :=
        out.journal.threshold_log d.warning
      rw [same, first] at rest
      refine rest.trans ?_
      split <;> simp

theorem records_receiveAll (out : Outlets) (sink : Sink) (ds : List Diagnostic) :
    (Receiver.receiveAll (Delivery.mk sink out) ds).outlets.journal.records =
      out.journal.records ++ out.journal.threshold.keeps (sink.records ds) := by
  induction ds generalizing out with
  | nil => cases sink <;> simp [Receiver.receiveAll, Sink.records, Threshold.keeps]
  | cons d ds ih =>
      refine (ih (out.report d sink)).trans ?_
      cases sink with
      | buffer h => rfl
      | journal =>
          have first : (out.report d .journal).journal.records = _ :=
            out.journal.records_log_keeps d.warning
          have same : (out.report d .journal).journal.threshold = out.journal.threshold :=
            out.journal.threshold_log d.warning
          rw [first, same, List.append_assoc]
          simp [Sink.records, Threshold.keeps, ← List.filter_append]

theorem gained_receiveAll {out : Outlets} {sink : Sink} (serves : out.Serves sink)
    (ds : List Diagnostic) :
    out.Gained (Receiver.receiveAll (Delivery.mk sink out) ds).outlets ds sink := by
  cases sink with
  | journal => exact out.warnings_receiveAll ds
  | buffer h => exact diagnostics_receiveAll serves ds

variable {before after : Outlets} {ds : List Diagnostic} {sink : Sink}

theorem Gained.log (gained : before.Gained after ds sink) (level : Level) {target : String}
    (other : target ≠ "artbench::assert") (text : String) :
    before.Gained (after.log level target text) ds sink := by
  cases sink with
  | journal => exact (after.journal.warnings_log_of_other other).trans gained
  | buffer h => exact gained

theorem Gained.of_log {level : Level} {target : String} {text : String}
    (other : target ≠ "artbench::assert")
    (gained : (before.log level target text).Gained after ds sink) :
    before.Gained after ds sink := by
  cases sink with
  | buffer h => exact gained
  | journal =>
      have warnings := before.journal.warnings_log_of_other (r := ⟨level, target, text⟩) other
      have threshold := before.journal.threshold_log ⟨level, target, text⟩
      unfold Gained Outlets.log at gained
      rw [warnings, threshold] at gained
      exact gained

end Outlets

namespace Rig

variable {κ η : Type} [CoinSource κ] [Routine η]

omit [CoinSource κ] in
/-- What the sink of a started run is given is all that it gains. -/
theorem gained_started {r : Rig κ} {out : Outlets} (serves : out.Serves r.sink) (hook : η)
    (ds : List Diagnostic) :
    out.Gained (Receiver.receiveAll (Delivery.mk r.sink (r.started hook out)) ds).outlets ds
      r.sink := by
  have started : (r.started hook out).Serves r.sink := by
    cases sink : r.sink with
    | journal => trivial
    | buffer h => rw [sink] at serves; exact serves
  exact .of_log (by decide) (Outlets.gained_receiveAll started ds)

/-- However a run ends, its sink gains its diagnostics and nothing else. -/
theorem gained_run {r : Rig κ} {out : Outlets} (serves : out.Serves r.sink) (hook : η)
    (elapsed : Elapsed) :
    out.Gained (r.run hook elapsed out).outlets (r.reported hook) r.sink := by
  have delivered := gained_started serves hook (r.reported hook)
  cases ledger : r.onLedger hook with
  | returned p =>
      rw [run_of_returned ledger]
      exact delivered.log .info (by decide) _
  | panicked p message =>
      rw [run_of_panicked ledger]
      exact delivered

def startRecord (r : Rig κ) (name : String) : Record := ⟨.debug, target, r.startText name⟩

/-- The journal before the end of a run: the record of its start, and what its sink tells of
its diagnostics. -/
theorem records_delivered (r : Rig κ) (hook : η) (out : Outlets) :
    (r.delivered hook out).journal.records = out.journal.records ++
      out.journal.threshold.keeps
        (r.startRecord (Routine.name hook) :: r.sink.records (r.reported hook)) := by
  have first : (r.started hook out).journal.records = _ :=
    out.journal.records_log_keeps (r.startRecord (Routine.name hook))
  have same : (r.started hook out).journal.threshold = out.journal.threshold :=
    out.journal.threshold_log (r.startRecord (Routine.name hook))
  rw [delivered, Outlets.records_receiveAll, first, same, List.append_assoc]
  simp [Threshold.keeps, ← List.filter_append]

end Rig

end HookRig
