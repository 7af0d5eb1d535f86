import HookRig.Hook.Script
import HookRig.Proofs.Reruns

/-! # Handles that share a buffer

A handle is new or a clone of another one. The handles that go back to one new handle are a family:
they share a buffer, and each of them shows all that was reported through any of them, whether
it was made before the report or after it, and nothing else. A rig that is given handles to
report through is one more user of them.
-/

namespace HookRig

/-! ## Single handles -/

namespace Buffers

variable {b : Buffers} {g h : Nat}

private theorem owner_fresh : b.fresh.owner[h]? =
    if h = b.size then some b.contents.size else b.owner[h]? :=
  Array.getElem?_push

private theorem owner_share (live : b.Live g) :
    (b.share g).owner[h]? = b.owner[if h = b.size then g else h]? := by
  obtain ⟨buffer, owned, -⟩ := live
  by_cases last : h = b.size
  · simp [share, owned, last, size]
  · have other : h ≠ b.owner.size := last
    simp [share, owned, last, Array.getElem?_push, other]

private theorem Live.lt_size (live : b.Live h) : h < b.size := by
  obtain ⟨buffer, owned, -⟩ := live
  obtain ⟨bound, -⟩ := Array.getElem?_eq_some_iff.mp owned
  exact bound

theorem Live.fresh (live : b.Live h) : b.fresh.Live h := by
  have earlier : h ≠ b.size := Nat.ne_of_lt live.lt_size
  obtain ⟨buffer, owned, bound⟩ := live
  refine ⟨buffer, ?_, ?_⟩
  · rw [owner_fresh, if_neg earlier, owned]
  · simp [Buffers.fresh]
    omega

theorem live_fresh : b.fresh.Live b.size := by
  refine ⟨b.contents.size, ?_, ?_⟩
  · rw [owner_fresh, if_pos rfl]
  · simp [Buffers.fresh]

theorem Live.share (origin : b.Live g) (live : b.Live (if h = b.size then g else h)) :
    (b.share g).Live h := by
  obtain ⟨buffer, owned, bound⟩ := live
  exact ⟨buffer, (owner_share origin).trans owned, bound⟩

theorem diagnostics_fresh : b.fresh.diagnostics b.size = [] := by
  unfold diagnostics
  rw [owner_fresh, if_pos rfl]
  simp [fresh]

theorem Live.diagnostics_fresh (live : b.Live h) : b.fresh.diagnostics h = b.diagnostics h := by
  have earlier : h ≠ b.size := Nat.ne_of_lt live.lt_size
  obtain ⟨buffer, owned, bound⟩ := live
  have same : b.fresh.contents[buffer]? = b.contents[buffer]? := by
    simp [Buffers.fresh, Array.getElem?_push, Nat.ne_of_lt bound]
  unfold diagnostics
  rw [owner_fresh, if_neg earlier, owned]
  simp only [same]

theorem diagnostics_share (live : b.Live g) :
    (b.share g).diagnostics h = b.diagnostics (if h = b.size then g else h) := by
  unfold diagnostics
  rw [owner_share live]
  rfl

theorem length_eq (b : Buffers) (h : Nat) : b.length h = (b.diagnostics h).length := by
  unfold length diagnostics
  cases b.owner[h]? with
  | none => rfl
  | some buffer => simp

theorem isEmpty_iff (b : Buffers) (h : Nat) : b.isEmpty h = true ↔ b.diagnostics h = [] := by
  rw [isEmpty, decide_eq_true_iff, length_eq, List.length_eq_zero_iff]

end Buffers

/-! ## Courses of handles -/

/-- What is done with handles, one thing after the other. There are `n` of them by then, numbered in
the order in which they were made. Only handles that exist are cloned and reported through. -/
inductive Course : Nat → Type
  | start : Course 0
  | new {n : Nat} (earlier : Course n) : Course (n + 1)
  | clone {n : Nat} (earlier : Course n) (origin : Fin n) : Course (n + 1)
  | report {n : Nat} (earlier : Course n) (through : Fin n) (d : Diagnostic) : Course n

namespace Course

def buffers {n : Nat} : Course n → Buffers
  | .start => {}
  | .new c => c.buffers.fresh
  | .clone c origin => c.buffers.share origin
  | .report c through d => c.buffers.report through d

def reports {n : Nat} : Course n → List (Nat × Diagnostic)
  | .start => []
  | .new c => c.reports
  | .clone c _ => c.reports
  | .report c through d => c.reports ++ [(through.val, d)]

/-- The new handle that a handle goes back to. It is the one of its origin for a clone. -/
def founder {n : Nat} : Course n → Nat → Nat
  | .start, h => h
  | .new c, h => c.founder h
  | @clone n c origin, h => if h = n then c.founder origin else c.founder h
  | .report c _ _, h => c.founder h

def familyReports {n : Nat} (c : Course n) (h : Nat) : List Diagnostic :=
  (c.reports.filter fun r => c.founder r.1 = c.founder h).map (·.2)

variable {n : Nat} (c : Course n)

theorem size_buffers : c.buffers.size = n := by
  induction c with
  | start => rfl
  | new c ih => simpa [buffers, Buffers.size, Buffers.fresh] using ih
  | clone c origin ih => simpa [buffers, Buffers.size, Buffers.share] using ih
  | report c through d ih => simpa [buffers, Buffers.size, Buffers.owner_report] using ih

theorem live_buffers {h : Nat} (bound : h < n) : c.buffers.Live h := by
  induction c generalizing h with
  | start => omega
  | new c ih =>
      by_cases last : h = c.buffers.size
      · rw [last]
        exact Buffers.live_fresh
      · rw [c.size_buffers] at last
        exact (ih (by omega)).fresh
  | clone c origin ih =>
      refine (ih origin.isLt).share (ih ?_)
      rw [c.size_buffers]
      split <;> omega
  | report c through d ih => exact (ih bound).report through d

private theorem founder_of_le {h : Nat} (bound : n ≤ h) : c.founder h = h := by
  induction c with
  | start => rfl
  | new c ih => exact ih (by omega)
  | @clone n c origin ih =>
      have other : h ≠ n := by omega
      rw [founder, if_neg other]
      exact ih (by omega)
  | report c through d ih => exact ih bound

private theorem founder_lt {h : Nat} (bound : h < n) : c.founder h < n := by
  induction c generalizing h with
  | start => omega
  | @new n c ih =>
      rw [founder]
      by_cases last : h = n
      · rw [c.founder_of_le (by omega)]
        omega
      · have earlier := ih (h := h) (by omega)
        omega
  | @clone n c origin ih =>
      rw [founder]
      by_cases last : h = n
      · rw [if_pos last]
        have earlier := ih origin.isLt
        omega
      · rw [if_neg last]
        have earlier := ih (h := h) (by omega)
        omega
  | report c through d ih => exact ih bound

private theorem founder_clone (origin : Fin n) (h : Nat) :
    (c.clone origin).founder h = c.founder (if h = n then origin else h) := by
  rw [founder]
  split <;> rfl

/-! ## Families -/

/-- Two handles have one buffer exactly if they are of one family. -/
theorem owner_eq_iff {g h : Nat} (hg : g < n) (hh : h < n) :
    c.buffers.owner[g]? = c.buffers.owner[h]? ↔ c.founder g = c.founder h := by
  induction c generalizing g h with
  | start => omega
  | report c through d ih =>
      rw [buffers, Buffers.owner_report, founder, founder]
      exact ih hg hh
  | @clone n c origin ih =>
      have live := c.live_buffers origin.isLt
      rw [buffers, Buffers.owner_share live, Buffers.owner_share live, c.size_buffers,
        founder_clone, founder_clone]
      apply ih
      · split <;> omega
      · split <;> omega
  | @new n c ih =>
      -- The buffer of the new handle is beyond those of all others, and so is its number.
      have beyond {k : Nat} (bound : k < n) :
          c.buffers.owner[k]? ≠ some c.buffers.contents.size ∧ c.founder k ≠ n := by
        obtain ⟨buffer, owned, small⟩ := c.live_buffers bound
        refine ⟨?_, Nat.ne_of_lt (c.founder_lt bound)⟩
        rw [owned]
        simp only [ne_eq, Option.some.injEq]
        omega
      have own : c.founder n = n := c.founder_of_le (Nat.le_refl n)
      rw [buffers, Buffers.owner_fresh, Buffers.owner_fresh, c.size_buffers, founder, founder]
      by_cases first : g = n
      · by_cases second : h = n
        · simp [first, second]
        · have other := beyond (k := h) (by omega)
          simp [first, second, own, other.1.symm, other.2.symm]
      · by_cases second : h = n
        · have other := beyond (k := g) (by omega)
          simp [first, second, own, other.1, other.2]
        · rw [if_neg first, if_neg second]
          exact ih (by omega) (by omega)

private theorem handle_of_reports : ∀ r ∈ c.reports, r.1 < n := by
  induction c with
  | start => simp [reports]
  | new c ih =>
      intro r member
      exact Nat.lt_succ_of_lt (ih r member)
  | clone c origin ih =>
      intro r member
      exact Nat.lt_succ_of_lt (ih r member)
  | report c through d ih =>
      intro r member
      rw [reports, List.mem_append, List.mem_singleton] at member
      rcases member with earlier | rfl
      · exact ih r earlier
      · exact through.isLt

/-- All reports so far went through older handles, and those have older founders. -/
private theorem familyReports_of_le {h : Nat} (bound : n ≤ h) : c.familyReports h = [] := by
  have own : c.founder h = h := c.founder_of_le bound
  have none : c.reports.filter (fun r => c.founder r.1 = c.founder h) = [] := by
    rw [List.filter_eq_nil_iff]
    intro r member
    have earlier := c.founder_lt (c.handle_of_reports r member)
    simp only [decide_eq_true_eq]
    omega
  rw [familyReports, none, List.map_nil]

theorem familyReports_clone (origin : Fin n) (h : Nat) :
    (c.clone origin).familyReports h = c.familyReports (if h = n then origin else h) := by
  unfold familyReports
  rw [reports, founder_clone]
  congr 1
  refine List.filter_congr fun r member => ?_
  have other : r.1 ≠ n := Nat.ne_of_lt (c.handle_of_reports r member)
  rw [founder_clone, if_neg other]

theorem familyReports_report (through : Fin n) (d : Diagnostic) (h : Nat) :
    (c.report through d).familyReports h =
      c.familyReports h ++ if c.founder through = c.founder h then [d] else [] := by
  have same (k : Nat) : (c.report through d).founder k = c.founder k := rfl
  unfold familyReports
  simp only [reports, same, List.filter_append, List.map_append]
  congr 1
  by_cases family : c.founder through = c.founder h
  · simp [family]
  · simp [family]

/-- A handle shows exactly the reports of its family. -/
theorem diagnostics_buffers {h : Nat} (bound : h < n) :
    c.buffers.diagnostics h = c.familyReports h := by
  induction c generalizing h with
  | start => omega
  | @new n c ih =>
      by_cases last : h = n
      · have empty : c.familyReports h = [] := c.familyReports_of_le (by omega)
        have place : h = c.buffers.size := last.trans c.size_buffers.symm
        have shown : c.buffers.fresh.diagnostics h = [] := by
          rw [place]
          exact Buffers.diagnostics_fresh
        exact shown.trans empty.symm
      · have earlier : h < n := by omega
        exact (c.live_buffers earlier).diagnostics_fresh.trans (ih earlier)
  | @clone n c origin ih =>
      rw [buffers, Buffers.diagnostics_share (c.live_buffers origin.isLt), c.size_buffers,
        familyReports_clone]
      apply ih
      split <;> omega
  | report c through d ih =>
      have live := c.live_buffers through.isLt
      rw [buffers, Buffers.diagnostics_report_through live (c.live_buffers bound), ih bound,
        familyReports_report]
      simp only [c.owner_eq_iff through.isLt bound]

/-! ## Reports to a sink -/

def reportAll (c : Course n) (through : Fin n) (ds : List Diagnostic) : Course n :=
  ds.foldl (fun c d => c.report through d) c

/-- Reports in a row to one sink. Those to the journal go through no handle. -/
def deliver (c : Course n) : Sink → List Diagnostic → Course n
  | .journal, _ => c
  | .buffer h, ds => if bound : h < n then c.reportAll ⟨h, bound⟩ ds else c

def reaches (c : Course n) : Sink → Nat → Bool
  | .journal, _ => false
  | .buffer g, h => c.founder g = c.founder h

private theorem founder_reportAll (through : Fin n) (ds : List Diagnostic) (h : Nat) :
    (c.reportAll through ds).founder h = c.founder h := by
  induction ds generalizing c with
  | nil => rfl
  | cons d ds ih => exact ih (c.report through d)

private theorem founder_deliver (sink : Sink) (ds : List Diagnostic) (h : Nat) :
    (c.deliver sink ds).founder h = c.founder h := by
  cases sink with
  | journal => rfl
  | buffer g =>
      rw [deliver]
      by_cases bound : g < n
      · rw [dif_pos bound, founder_reportAll]
      · rw [dif_neg bound]

private theorem reaches_deliver (sink : Sink) (ds : List Diagnostic) :
    (c.deliver sink ds).reaches = c.reaches := by
  funext other h
  cases other with
  | journal => rfl
  | buffer g => simp only [reaches, founder_deliver]

end Course

namespace Sink

def Within (n : Nat) : Sink → Prop
  | .journal => True
  | .buffer h => h < n

theorem Within.succ {n : Nat} {sink : Sink} (within : sink.Within n) : sink.Within (n + 1) := by
  cases sink with
  | journal => trivial
  | buffer h => exact Nat.lt_succ_of_lt within

end Sink

namespace Course

variable {n : Nat} (c : Course n)

private theorem reaches_clone {sink : Sink} (within : sink.Within n) (origin : Fin n) (h : Nat) :
    (c.clone origin).reaches sink h = c.reaches sink (if h = n then origin else h) := by
  cases sink with
  | journal => rfl
  | buffer g =>
      have other : g ≠ n := Nat.ne_of_lt within
      rw [reaches, reaches, founder_clone, founder_clone, if_neg other]

theorem familyReports_deliver {sink : Sink} (within : sink.Within n) (ds : List Diagnostic)
    (h : Nat) :
    (c.deliver sink ds).familyReports h =
      c.familyReports h ++ if c.reaches sink h then ds else [] := by
  cases sink with
  | journal => simp [deliver, reaches]
  | buffer g =>
      have bound : g < n := within
      rw [deliver, dif_pos bound, reaches]
      induction ds generalizing c with
      | nil => simp [reportAll]
      | cons d ds ih =>
          refine (ih (c.report ⟨g, bound⟩ d)).trans ?_
          rw [familyReports_report, founder, founder]
          by_cases family : c.founder g = c.founder h
          · simp [family]
          · simp [family]

theorem buffers_deliver {sink : Sink} (within : sink.Within n) {out : Outlets}
    (same : out.buffers = c.buffers) (ds : List Diagnostic) :
    (Receiver.receiveAll (Delivery.mk sink out) ds).outlets.buffers =
      (c.deliver sink ds).buffers := by
  cases sink with
  | journal =>
      induction ds generalizing out with
      | nil => exact same
      | cons d ds ih => exact ih same
  | buffer g =>
      have bound : g < n := within
      rw [deliver, dif_pos bound]
      induction ds generalizing c out with
      | nil => exact same
      | cons d ds ih =>
          have next : (out.report d (.buffer g)).buffers = (c.report ⟨g, bound⟩ d).buffers :=
            congrArg (·.report g d) same
          exact ih (c.report ⟨g, bound⟩ d) next

end Course

/-! ## A rig beside handles -/

namespace Rig

/-- A rig beside handles, with all that was given to a sink so far: what was reported
through a handle by hand, and the diagnostics of each run with the sink that the rig had then.
The rig has the journal at first, and later any sink that exists by then. -/
inductive Beside : {n : Nat} → Course n → (κ : Type) → Rig κ → Outlets →
    List (Sink × List Diagnostic) → Prop
  | start {κ : Type} (r : Rig κ) (journal : Journal) :
      Beside .start κ (r.withSink .journal) { journal } []
  | new {n κ out log} {c : Course n} {r : Rig κ} (earlier : Beside c κ r out log) :
      Beside c.new κ r { out with buffers := out.buffers.fresh } log
  | clone {n κ out log} {c : Course n} {r : Rig κ} (earlier : Beside c κ r out log)
      (origin : Fin n) :
      Beside (c.clone origin) κ r { out with buffers := out.buffers.share origin } log
  | report {n κ out log} {c : Course n} {r : Rig κ} (earlier : Beside c κ r out log)
      (through : Fin n) (d : Diagnostic) :
      Beside (c.report through d) κ r (out.report d (.buffer through))
        (log ++ [(.buffer through, [d])])
  | withCoin {n κ out log} {κ' : Type} {c : Course n} {r : Rig κ} (earlier : Beside c κ r out log)
      (coin : κ') : Beside c κ' (r.withCoin coin) out log
  | withSink {n κ out log} {c : Course n} {r : Rig κ} (earlier : Beside c κ r out log) (sink : Sink)
      (within : sink.Within n) : Beside c κ (r.withSink sink) out log
  | run {n κ out log} {η : Type} [CoinSource κ] [Routine η] {c : Course n} {r : Rig κ}
      (earlier : Beside c κ r out log) (hook : η) (elapsed : Elapsed) :
      Beside (c.deliver r.sink (r.reported hook)) κ (r.run hook elapsed out).rig
        (r.run hook elapsed out).outlets (log ++ [(r.sink, r.reported hook)])

/-- However a run ends, the buffers are left as after its diagnostics. -/
theorem buffers_run {κ η : Type} [CoinSource κ] [Routine η] (r : Rig κ) (hook : η)
    (elapsed : Elapsed) (out : Outlets) :
    (r.run hook elapsed out).outlets.buffers = (r.delivered hook out).buffers := by
  cases ledger : r.onLedger hook with
  | returned p =>
      rw [run_of_returned ledger]
      rfl
  | panicked p message => rw [run_of_panicked ledger]

namespace Beside

variable {n : Nat} {c : Course n} {κ : Type} {r : Rig κ} {out : Outlets}
  {log : List (Sink × List Diagnostic)}

theorem sinks_within (beside : Beside c κ r out log) :
    r.sink.Within n ∧ ∀ given ∈ log, given.1.Within n := by
  induction beside with
  | start r journal => exact ⟨trivial, fun given member => by cases member⟩
  | new earlier ih => exact ⟨ih.1.succ, fun given member => (ih.2 given member).succ⟩
  | clone earlier origin ih => exact ⟨ih.1.succ, fun given member => (ih.2 given member).succ⟩
  | report earlier through d ih =>
      refine ⟨ih.1, ?_⟩
      intro given member
      rcases List.mem_append.mp member with before | last
      · exact ih.2 given before
      · rw [List.mem_singleton.mp last]
        exact through.isLt
  | withCoin earlier coin ih => exact ih
  | withSink earlier sink within ih => exact ⟨within, ih.2⟩
  | @run n κ out log η _ _ c r earlier hook elapsed ih =>
      refine ⟨?_, ?_⟩
      · rw [(rig_run r hook elapsed out).2.1]
        exact ih.1
      · intro given member
        rcases List.mem_append.mp member with before | last
        · exact ih.2 given before
        · rw [List.mem_singleton.mp last]
          exact ih.1

theorem buffers_eq (beside : Beside c κ r out log) : out.buffers = c.buffers := by
  induction beside with
  | start r journal => rfl
  | new earlier ih => exact congrArg Buffers.fresh ih
  | clone earlier origin ih => exact congrArg (·.share origin) ih
  | report earlier through d ih => exact congrArg (·.report through d) ih
  | withCoin earlier coin ih => exact ih
  | withSink earlier sink within ih => exact ih
  | @run n κ out log η _ _ c r earlier hook elapsed ih =>
      have started : (r.started hook out).buffers = c.buffers := ih
      rw [buffers_run, delivered]
      exact c.buffers_deliver earlier.sinks_within.1 started _

theorem familyReports_eq (beside : Beside c κ r out log) (h : Nat) :
    c.familyReports h = (log.filter fun given => c.reaches given.1 h).flatMap (·.2) := by
  induction beside generalizing h with
  | start r journal => rfl
  | new earlier ih => exact ih h
  | @clone n κ out log c r earlier origin ih =>
      -- All sinks in the log are older than the clone, so none of them is taken for it.
      rw [Course.familyReports_clone, ih]
      congr 1
      refine List.filter_congr fun given member => ?_
      rw [c.reaches_clone (earlier.sinks_within.2 given member)]
  | @report n κ out log c r earlier through d ih =>
      have same : (c.report through d).reaches = c.reaches := by
        funext sink k
        cases sink <;> rfl
      rw [Course.familyReports_report, ih, same, List.filter_append, List.flatMap_append]
      congr 1
      by_cases family : c.founder through = c.founder h
      · simp [Course.reaches, family]
      · simp [Course.reaches, family]
  | withCoin earlier coin ih => exact ih h
  | withSink earlier sink within ih => exact ih h
  | @run n κ out log η _ _ c r earlier hook elapsed ih =>
      rw [Course.familyReports_deliver c earlier.sinks_within.1, ih, Course.reaches_deliver,
        List.filter_append, List.flatMap_append]
      congr 1
      by_cases family : c.reaches r.sink h = true
      · simp [family]
      · simp [family]

end Beside

end Rig

/-- A handle shows what was reported through its family, by hand or by the runs of a rig that had
one of them for its sink, and nothing else. -/
theorem Course.handles_show_their_family {n : Nat} (c : Course n) :
    (∀ h : Fin n, c.buffers.diagnostics h = c.familyReports h ∧
      c.buffers.length h = (c.familyReports h).length ∧
      (c.buffers.isEmpty h = true ↔ c.familyReports h = [])) ∧
    (∀ (g h : Fin n) (d : Diagnostic), c.founder g ≠ c.founder h →
      (c.report g d).buffers.diagnostics h = c.buffers.diagnostics h) ∧
    ∀ (κ : Type) (r : Rig κ) (out : Outlets) (log : List (Sink × List Diagnostic)),
      Rig.Beside c κ r out log → ∀ h : Fin n,
        out.buffers.diagnostics h =
            (log.filter fun given => c.reaches given.1 h).flatMap (·.2) ∧
          out.buffers.length h = (out.buffers.diagnostics h).length ∧
          (out.buffers.isEmpty h = true ↔ out.buffers.diagnostics h = []) := by
  have shown (h : Fin n) : c.buffers.diagnostics h = c.familyReports h :=
    c.diagnostics_buffers h.isLt
  refine ⟨?_, ?_, ?_⟩
  · intro h
    rw [Buffers.length_eq, Buffers.isEmpty_iff, shown]
    exact ⟨rfl, rfl, Iff.rfl⟩
  · intro g h d other
    rw [(c.report g d).diagnostics_buffers h.isLt, familyReports_report, if_neg other,
      List.append_nil, shown]
  · intro κ r out log beside h
    refine ⟨?_, Buffers.length_eq _ _, Buffers.isEmpty_iff _ _⟩
    rw [beside.buffers_eq, shown, beside.familyReports_eq]

/-- A late clone is given to a rig, taken away for a handle of another family and for the journal,
and given back; the last run panics after a failed check. -/
theorem Course.handles_show_their_family_to_and_fro :
    ∃ (c : Course 3) (r : Rig Coin) (out : Outlets) (hand : Diagnostic)
      (first second third last : List Diagnostic),
      Rig.Beside c Coin r out
        [(.buffer 0, [hand]), (.buffer 1, first), (.buffer 2, second), (.journal, third),
          (.buffer 1, last)] ∧
      first.length = 2 ∧ second.length = 3 ∧ third.length = 3 ∧ last.length = 1 ∧
      c.founder 0 = c.founder 1 ∧ c.founder 0 ≠ c.founder 2 ∧
      out.buffers.diagnostics 0 = hand :: (first ++ last) ∧
      out.buffers.diagnostics 2 = second := by
  let r : Rig Coin := { settings := .withIterations 3, coin := .fixed true }
  let stop : Script := ⟨"stop", [⟨.among [1], [.panic "stopped"]⟩]⟩
  have made := (((Rig.Beside.start r {}).new.report 0 (.internal "by hand")).clone 0).new
  have once := (made.withSink (.buffer 1) (by simp [Sink.Within])).run
    (.failing 2 : Hook Script) {}
  have away := (once.withSink (.buffer 2) (by simp [Sink.Within])).run
    (.failing 1 : Hook Script) {}
  have silent := (away.withSink .journal trivial).run (.failing 1 : Hook Script) {}
  have back := (silent.withSink (.buffer 1) (by simp [Sink.Within])).run
    (.chain "outer" [.failing 2, .custom stop] : Hook Script) {}
  have shows := (handles_show_their_family _).2.2 Coin _ _ _ back
  refine ⟨_, _, _, _, _, _, _, _, back, ?_, ?_, ?_, ?_, ?_, ?_, ?_, ?_⟩
  · decide +kernel
  · decide +kernel
  · decide +kernel
  · decide +kernel
  · decide +kernel
  · decide +kernel
  · exact (shows 0).1.trans (by decide +kernel)
  · exact (shows 2).1.trans (by decide +kernel)

end HookRig
