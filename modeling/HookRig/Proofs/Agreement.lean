import HookRig.Proofs.Loop
import HookRig.Rig

/-! # Runs that differ in what is observed

Two loops of one hook may hand their diagnostics to different receivers and keep
different parts of the trace. They go through the same iterations all the same:
what they keep are parts of one and the same trace, and what they hand on is one
and the same list of diagnostics.
-/

namespace HookRig

def Receiver.receiveAll {σ : Type} [Receiver σ] (s : σ) (ds : List Diagnostic) : σ :=
  ds.foldl receive s

/-- A receiver that got what a ledger got keeps up with it. -/
theorem receive_follows {σ : Type} [Receiver σ] (first s : σ) (l : Ledger) (d : Diagnostic)
    (h : s = Receiver.receiveAll first l.diagnostics) :
    Receiver.receive s d = Receiver.receiveAll first (Receiver.receive l d).diagnostics := by
  rw [h, Ledger.diagnostics_receive, Receiver.receiveAll, Receiver.receiveAll, List.foldl_append]
  rfl

def kept : Option Nat → List TraceStep → List TraceStep
  | none, _ => []
  | some limit, steps => steps.take limit

/-- There is room for another step as long as fewer than the limit are recorded, which is to say, as
long as there were fewer steps than that. -/
private theorem room_kept (keep : Option Nat) (steps : List TraceStep) :
    keep.any ((kept keep steps).length < ·) = keep.any (steps.length < ·) := by
  cases keep with
  | none => rfl
  | some limit =>
      simp only [kept, Option.any_some, List.length_take, decide_eq_decide]
      omega

private theorem kept_concat (keep : Option Nat) (steps : List TraceStep) (s : TraceStep) :
    kept keep (steps ++ [s]) =
      kept keep steps ++ if keep.any ((kept keep steps).length < ·) then [s] else [] := by
  rw [room_kept]
  cases keep with
  | none => rfl
  | some limit =>
      simp only [kept, Option.any_some, decide_eq_true_eq, List.take_append]
      by_cases room : steps.length < limit
      · have fits : [s].length ≤ limit - steps.length := by simp; omega
        rw [if_pos room, List.take_of_length_le fits]
      · rw [if_neg room, show limit - steps.length = 0 by omega, List.take_zero]

theorem kept_prefix (m n : Nat) (steps : List TraceStep) :
    kept (some m) steps <+: kept (some n) steps ∨ kept (some n) steps <+: kept (some m) steps := by
  rcases Nat.le_total m n with le | le
  · exact .inl (List.take_prefix_take_left le)
  · exact .inr (List.take_prefix_take_left le)

namespace Bench

variable {κ σ τ : Type}

/-- Benches that are the same but for their receivers, which are related. -/
structure Agree (S : σ → τ → Prop) (b : Bench κ σ) (c : Bench κ τ) : Prop where
  accumulator : b.accumulator = c.accumulator
  coin : b.coin = c.coin
  counters : b.counters = c.counters
  noted : b.noted = c.noted
  sink : S b.sink c.sink

variable [Receiver σ] [Receiver τ] {S : σ → τ → Prop}

theorem Agree.reports {b : Bench κ σ} {c : Bench κ τ} (h : b.Agree S c)
    (receive : ∀ s t d, S s t → S (Receiver.receive s d) (Receiver.receive t d))
    (ds : List Diagnostic) :
    (ds.foldl Bench.report b).Agree S (ds.foldl Bench.report c) := by
  induction ds generalizing b c with
  | nil => exact h
  | cons d ds ih =>
      exact ih ⟨h.accumulator, h.coin, h.counters, h.noted, receive _ _ d h.sink⟩

variable [CoinSource κ]

theorem Agree.answer {b : Bench κ σ} {c : Bench κ τ} (h : b.Agree S c)
    (receive : ∀ s t d, S s t → S (Receiver.receive s d) (Receiver.receive t d))
    (site : Site) (r : Request) :
    (b.answer site r).1 = (c.answer site r).1 ∧
      (b.answer site r).2.Agree S (c.answer site r).2 := by
  obtain ⟨acc, coin, s, counters, noted⟩ := b
  obtain ⟨acc', coin', t, counters', noted'⟩ := c
  obtain ⟨rfl, rfl, rfl, rfl, sinks⟩ := h
  cases r with
  | iteration | sum | counters => exact ⟨rfl, rfl, rfl, rfl, rfl, sinks⟩
  | store | antiOp | draw | note => exact ⟨rfl, rfl, rfl, rfl, rfl, sinks⟩
  | check holds message =>
      cases holds with
      | true => exact ⟨rfl, rfl, rfl, rfl, rfl, sinks⟩
      | false => exact ⟨rfl, rfl, rfl, rfl, rfl, receive _ _ _ sinks⟩

end Bench

theorem Program.run_agree {κ σ τ α : Type} [CoinSource κ] [Receiver σ] [Receiver τ]
    {S : σ → τ → Prop}
    (receive : ∀ s t d, S s t → S (Receiver.receive s d) (Receiver.receive t d))
    (site : Site) (p : Program α) {b : Bench κ σ} {c : Bench κ τ} (h : b.Agree S c) :
    (p.run site b).1 = (p.run site c).1 ∧ (p.run site b).2.Agree S (p.run site c).2 := by
  induction p generalizing b c with
  | done a => exact ⟨rfl, h⟩
  | ask r next ih =>
      obtain ⟨reply, after⟩ := h.answer receive site r
      simp only [run]
      rw [reply]
      exact ih _ after

namespace Progress

variable {κ σ τ η θ : Type} {keep keep' : Option Nat}

/-- Loops that have come equally far with the same sums, and keep parts of one
trace. -/
structure Matches (keep keep' : Option Nat) (p : Progress κ σ η) (q : Progress κ τ θ) :
    Prop where
  accumulator : p.bench.accumulator = q.bench.accumulator
  calls : p.calls = q.calls
  wraps : p.wraps = q.wraps
  firstWrap : p.firstWrap = q.firstWrap
  trace : ∃ steps : List TraceStep,
    steps.length = p.calls ∧ p.trace = kept keep steps ∧ q.trace = kept keep' steps

theorem trace_complete (p : Progress κ σ η) (keep : Option Nat) (hook : η) (bench : Bench κ σ) :
    (p.complete keep hook bench).trace = p.trace ++
      if keep.any (p.trace.length < ·) then
        [⟨p.index, p.bench.sum, bench.sum, (bench.addIndex p.index).sum⟩]
      else [] := by
  have sizes : p.trace.length = p.recorded.size := Array.length_toList
  rw [sizes]
  simp only [complete, trace]
  split <;> simp

theorem Matches.complete {p : Progress κ σ η} {q : Progress κ τ θ} (h : p.Matches keep keep' q)
    {b : Bench κ σ} {c : Bench κ τ} (same : b.accumulator = c.accumulator) (hook : η)
    (hook' : θ) : (p.complete keep hook b).Matches keep keep' (q.complete keep' hook' c) := by
  have index : p.index = q.index := by rw [Progress.index, Progress.index, h.calls]
  obtain ⟨steps, length, kept_p, kept_q⟩ := h.trace
  constructor
  · simp only [bench_complete, Bench.addIndex, same, index]
  · simp only [calls_complete, h.calls]
  · simp only [Progress.complete, same, index, h.wraps]
  · simp only [Progress.complete, same, index, h.firstWrap]
  · let s : TraceStep := ⟨p.index, p.bench.sum, b.sum, (b.addIndex p.index).sum⟩
    refine ⟨steps ++ [s], ?_, ?_, ?_⟩
    · rw [List.length_append, length]
      rfl
    · rw [trace_complete, kept_concat, kept_p]
    · rw [trace_complete, kept_concat, kept_q]
      simp only [s, Bench.sum, Bench.addIndex, same, index, h.accumulator]

theorem Matches.internalCheck {p : Progress κ σ η} {q : Progress κ τ θ}
    (h : p.Matches keep keep' q) : p.internalCheck = q.internalCheck := by
  rw [Progress.internalCheck, Progress.internalCheck, h.wraps, h.firstWrap]

theorem Matches.start (hook : η) (hook' : θ) (coin : κ) (s : σ) (t : τ) :
    (start hook coin s).Matches keep keep' (start hook' coin t) := by
  refine ⟨rfl, rfl, rfl, rfl, [], rfl, ?_, ?_⟩
  · cases keep <;> simp [Progress.trace, Progress.start, kept]
  · cases keep' <;> simp [Progress.trace, Progress.start, kept]

structure Agree (S : σ → τ → Prop) (keep keep' : Option Nat) (p : Progress κ σ η)
    (q : Progress κ τ η) : Prop where
  hook : p.hook = q.hook
  bench : p.bench.Agree S q.bench
  books : p.Matches keep keep' q

variable {S : σ → τ → Prop} {p : Progress κ σ η} {q : Progress κ τ η}

theorem Agree.start (hook : η) (coin : κ) {s : σ} {t : τ} (sinks : S s t) :
    (start hook coin s).Agree S keep keep' (start hook coin t) where
  hook := rfl
  bench := ⟨rfl, rfl, rfl, rfl, sinks⟩
  books := .start hook hook coin s t

theorem Agree.metrics (h : p.Agree S keep keep' q) : p.metrics = q.metrics := by
  rw [Progress.metrics, Progress.metrics, h.books.internalCheck, h.books.calls, h.bench.counters]

theorem Agree.sum (h : p.Agree S keep keep' q) : p.bench.sum = q.bench.sum := by
  rw [Bench.sum, Bench.sum, h.bench.accumulator]

variable [Receiver σ] [Receiver τ]

@[simp] theorem coin_close (p : Progress κ σ η) : p.close.bench.coin = p.bench.coin := by
  unfold Progress.close
  cases p.internalCheck <;> rfl

@[simp] theorem noted_close (p : Progress κ σ η) : p.close.bench.noted = p.bench.noted := by
  unfold Progress.close
  cases p.internalCheck <;> rfl

theorem diagnostics_close (p : Progress κ Ledger η) :
    p.close.bench.diagnostics = p.bench.diagnostics ++ p.internalCheck.toList := by
  unfold Progress.close
  cases p.internalCheck <;> simp

theorem Agree.close (h : p.Agree S keep keep' q)
    (receive : ∀ s t d, S s t → S (Receiver.receive s d) (Receiver.receive t d)) :
    p.close.bench.Agree S q.close.bench := by
  rw [Progress.close, Progress.close, h.books.internalCheck]
  exact h.bench.reports receive _

variable [CoinSource κ] [Routine η]

theorem Agree.step (h : p.Agree S keep keep' q)
    (receive : ∀ s t d, S s t → S (Receiver.receive s d) (Receiver.receive t d))
    (name : String) :
    (p.step name keep).Related (Agree S keep keep') (q.step name keep') := by
  have index : p.index = q.index := by rw [Progress.index, Progress.index, h.books.calls]
  obtain ⟨same, benches⟩ := (Routine.call q.hook).run_agree receive ⟨name, q.index⟩ h.bench
  unfold Progress.step Bench.callAs
  rw [h.hook, index]
  generalize (Routine.call q.hook).run ⟨name, q.index⟩ p.bench = left at *
  generalize (Routine.call q.hook).run ⟨name, q.index⟩ q.bench = right at *
  obtain ⟨outcome, b⟩ := left
  obtain ⟨outcome', c⟩ := right
  cases same
  cases outcome with
  | returned hook =>
      have books := h.books.complete benches.accumulator hook hook
      exact .returned ⟨rfl, { benches with accumulator := books.accumulator }, books⟩
  | panicked hook message =>
      exact .panicked ⟨rfl, benches, { h.books with accumulator := benches.accumulator }⟩

theorem Agree.advance (h : p.Agree S keep keep' q)
    (receive : ∀ s t d, S s t → S (Receiver.receive s d) (Receiver.receive t d))
    (name : String) (n : Nat) :
    (p.advance name keep n).Related (Agree S keep keep') (q.advance name keep' n) :=
  advance_related (fun _ _ related => related.step receive name) n h

end Progress

theorem Ending.exists_completed {e : Ending} (h : e.summary?.isSome = true) :
    ∃ s, e = .completed s := by
  cases e with
  | completed s => exact ⟨s, rfl⟩
  | panicked message => cases h

namespace Rig

variable {κ η : Type}

theorem summary_agree {σ τ : Type} {S : σ → τ → Prop} {r : Rig κ} {p : Progress κ σ η}
    {q : Progress κ τ η} (h : p.Agree S r.settings.keep r.settings.keep q) (elapsed : Elapsed) :
    r.summary p elapsed = r.summary q elapsed := by
  obtain ⟨steps, -, trace, trace'⟩ := h.books.trace
  rw [summary, summary, h.sum, h.metrics, trace, trace']

variable [CoinSource κ] [Routine η]

theorem loop_agree {σ τ : Type} [Receiver σ] [Receiver τ] {S : σ → τ → Prop}
    (receive : ∀ s t d, S s t → S (Receiver.receive s d) (Receiver.receive t d))
    {r r' : Rig κ} (coin : r.coin = r'.coin) (hook : η) {s : σ} {t : τ} (sinks : S s t)
    (n : Nat) :
    (r.loop hook s n).Related (Progress.Agree S r.settings.keep r'.settings.keep)
      (r'.loop hook t n) := by
  unfold loop
  rw [coin]
  exact (Progress.Agree.start hook r'.coin sinks).advance receive _ n

/-- The loop of a whole run, with a ledger in the place of the sink. -/
def onLedger (r : Rig κ) (hook : η) : Outcome (Progress κ Ledger η) :=
  r.loop hook {} r.settings.iterations.toNat

/-- A run whose iterations all return: each finds the property that makes it return, and leaves it
to the next. -/
theorem onLedger_returns {r : Rig κ} {hook : η} {I : Progress κ Ledger η → Prop}
    (start : I (.start hook r.coin {}))
    (proceeds : ∀ p, I p → p.calls < r.settings.iterations.toNat →
      ∃ q, p.step (Routine.name hook) r.settings.keep = .returned q ∧ I q) :
    ∃ p, r.onLedger hook = .returned p ∧ I p ∧ p.calls = r.settings.iterations.toNat := by
  obtain ⟨p, run, inv, calls⟩ :=
    Progress.advance_returns proceeds start (Nat.le_of_eq (Nat.zero_add _))
  exact ⟨p, run, inv, calls.trans (Nat.zero_add _)⟩

def reported (r : Rig κ) (hook : η) : List Diagnostic :=
  match r.onLedger hook with
  | .returned p => p.close.bench.diagnostics
  | .panicked p _ => p.bench.diagnostics

theorem reported_of_returned {r : Rig κ} {hook : η} {p : Progress κ Ledger η}
    (h : r.onLedger hook = .returned p) :
    r.reported hook = p.bench.diagnostics ++ p.internalCheck.toList := by
  rw [reported, h, ← p.diagnostics_close]

def delivered (r : Rig κ) (hook : η) (out : Outlets) : Outlets :=
  (Receiver.receiveAll (Delivery.mk r.sink (r.started hook out)) (r.reported hook)).outlets

/-- The loop that a run goes through does what the loop on a ledger does, and its
sink gets what the ledger gets. -/
theorem drive_agree (r : Rig κ) (hook : η) (out : Outlets) :
    (r.drive hook out).outcome.Related
      (Progress.Agree
        (fun v l => v = Receiver.receiveAll (Delivery.mk r.sink (r.started hook out)) l.diagnostics)
        r.settings.keep r.settings.keep)
      (r.onLedger hook) := by
  let first := Delivery.mk r.sink (r.started hook out)
  have sinks : first = Receiver.receiveAll first ({} : Ledger).diagnostics := rfl
  exact loop_agree (receive_follows first) rfl hook sinks _

theorem run_of_returned {r : Rig κ} {hook : η} {p : Progress κ Ledger η}
    (h : r.onLedger hook = .returned p) (elapsed : Elapsed) (out : Outlets) :
    r.run hook elapsed out =
      { rig := { r with coin := p.bench.coin, phase := .done }
        hook := p.hook
        outlets := (r.delivered hook out).log .info target
          (endText (Routine.name hook) (r.summary p elapsed))
        ending := .completed (r.summary p elapsed)
        notes := p.bench.notes } := by
  have agree := r.drive_agree hook out
  rw [h] at agree
  cases driven : (r.drive hook out).outcome with
  | panicked q message =>
      rw [driven] at agree
      cases agree
  | returned q =>
      rw [driven] at agree
      cases agree with
      | returned states =>
          have closed := states.close (receive_follows _)
          have sink : q.close.bench.sink.outlets = r.delivered hook out := by
            rw [closed.sink, delivered, reported, h]
            rfl
          have coin : q.close.bench.coin = p.bench.coin := by
            rw [Progress.coin_close, states.bench.coin]
          have notes : q.close.bench.notes = p.bench.notes := by
            rw [Bench.notes, Progress.noted_close, states.bench.noted, Bench.notes]
          rw [run, Drive.conclude, driven]
          simp only [sink, coin, notes, states.hook]
          rw [show (r.drive hook out).rig = r from rfl, summary_agree states]
          rfl

theorem run_of_panicked {r : Rig κ} {hook : η} {p : Progress κ Ledger η} {message : String}
    (h : r.onLedger hook = .panicked p message) (elapsed : Elapsed) (out : Outlets) :
    r.run hook elapsed out =
      { rig := { r with coin := p.bench.coin, phase := .running }
        hook := p.hook
        outlets := r.delivered hook out
        ending := .panicked message
        notes := p.bench.notes } := by
  have agree := r.drive_agree hook out
  rw [h] at agree
  cases driven : (r.drive hook out).outcome with
  | returned q =>
      rw [driven] at agree
      cases agree
  | panicked q message' =>
      rw [driven] at agree
      cases agree with
      | panicked states =>
          have sink : q.bench.sink.outlets = r.delivered hook out := by
            rw [states.bench.sink, delivered, reported, h]
            rfl
          have notes : q.bench.notes = p.bench.notes := by
            rw [Bench.notes, states.bench.noted, Bench.notes]
          rw [run, Drive.conclude, driven]
          simp only [sink, notes, states.hook, states.bench.coin]
          rfl

theorem completed_of_returned {r : Rig κ} {hook : η} {p : Progress κ Ledger η}
    (h : r.onLedger hook = .returned p) (elapsed : Elapsed) (out : Outlets) :
    (r.run hook elapsed out).ending = .completed (r.summary p elapsed) := by
  rw [run_of_returned h]

theorem returned_of_completed {r : Rig κ} {hook : η} {elapsed : Elapsed} {out : Outlets}
    {s : Summary} (h : (r.run hook elapsed out).ending = .completed s) :
    ∃ p, r.onLedger hook = .returned p ∧ s = r.summary p elapsed := by
  cases ledger : r.onLedger hook with
  | returned p =>
      rw [run_of_returned ledger] at h
      cases h
      exact ⟨p, rfl, rfl⟩
  | panicked p message =>
      rw [run_of_panicked ledger] at h
      cases h

theorem panicked_of_ending {r : Rig κ} {hook : η} {elapsed : Elapsed} {out : Outlets}
    {message : String} (h : (r.run hook elapsed out).ending = .panicked message) :
    ∃ q, r.onLedger hook = .panicked q message := by
  cases ledger : r.onLedger hook with
  | returned q =>
      rw [run_of_returned ledger] at h
      cases h
  | panicked q own =>
      rw [run_of_panicked ledger] at h
      cases h
      exact ⟨q, rfl⟩

end Rig

end HookRig
