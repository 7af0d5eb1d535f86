import HookRig.Hook.Script
import HookRig.Proofs.History
import HookRig.Proofs.Indices

/-! # What a recorded trace tells of its run

A trace that is recorded has a step for every iteration that there was room for. A step
holds the sum that its call found, the sum that the call left, and the sum after the addition
of the index. How much is recorded makes no difference to any call of the run, be it within
the trace or past it.
-/

namespace HookRig

theorem Bench.Agree.eq {κ σ : Type} {b c : Bench κ σ} (h : b.Agree Eq c) : b = c := by
  cases b
  cases c
  cases h
  simp_all

namespace Settings

variable {s : Settings}

theorem keep_eq_none_iff : s.keep = none ↔ s.recordTrace = false := by
  unfold keep
  cases s.recordTrace <;> simp

theorem traceLimit_of_keep {limit : Nat} (h : s.keep = some limit) : limit = s.traceLimit := by
  unfold keep at h
  split at h <;> simp_all

end Settings

namespace Progress

variable {κ σ η : Type} [CoinSource κ] [Receiver σ] [Routine η]

/-- The bench that the next call finds and the bench that it leaves, if it returns. -/
def nextCall (name : String) (p : Progress κ σ η) : Option (Bench κ σ × Bench κ σ) :=
  match p.bench.callAs name p.hook p.index with
  | (.returned _, left) => some (p.bench, left)
  | (.panicked _ _, _) => none

/-- A call cannot see the books of the loop that makes it. -/
theorem Agree.nextCall {keep keep' : Option Nat} {p q : Progress κ σ η}
    (h : p.Agree Eq keep keep' q) (name : String) : p.nextCall name = q.nextCall name := by
  have index : p.index = q.index := by rw [Progress.index, Progress.index, h.books.calls]
  rw [Progress.nextCall, Progress.nextCall, h.hook, h.bench.eq, index]

theorem nextCall_of_advance {name : String} {keep : Option Nat} {k n : Nat} (earlier : k < n)
    {p q : Progress κ σ η} (h : advance name keep n p = .returned q) :
    ∃ m, advance name keep k p = .returned m ∧ (m.nextCall name).isSome := by
  induction n generalizing q with
  | zero => omega
  | succ n ih =>
      rcases advance_succ_returned h with ⟨m, reached, stepped⟩
      rcases step_returned stepped with ⟨hook, left, call, -⟩
      by_cases last : k = n
      · subst last
        exact ⟨m, reached, by simp [nextCall, call]⟩
      · exact ih (by omega) reached

end Progress

namespace Rig

variable {κ η : Type}

def recording (r : Rig κ) (record : Bool) (limit : Nat) : Rig κ :=
  { r with settings := { r.settings with recordTrace := record, traceLimit := limit } }

variable [CoinSource κ] [Routine η]

/-- Call `k` of a run, if it is made and returns: the bench that it finds, and the bench that it
leaves. -/
def callAt (r : Rig κ) (hook : η) (out : Outlets) (k : Nat) :
    Option (Bench κ Delivery × Bench κ Delivery) :=
  match r.loop hook (Delivery.mk r.sink (r.started hook out)) k with
  | .returned p => p.nextCall (Routine.name hook)
  | .panicked _ _ => none

theorem callAt_of_reached {r : Rig κ} {hook : η} {out : Outlets} {k : Nat}
    {p : Progress κ Delivery η}
    (h : r.loop hook (Delivery.mk r.sink (r.started hook out)) k = .returned p) :
    r.callAt hook out k = p.nextCall (Routine.name hook) := by
  simp only [callAt, h]

theorem callAt_of_panicked {r : Rig κ} {hook : η} {out : Outlets} {k : Nat}
    {p : Progress κ Delivery η} {message : String}
    (h : r.loop hook (Delivery.mk r.sink (r.started hook out)) k = .panicked p message) :
    r.callAt hook out k = none := by
  simp only [callAt, h]

theorem callAt_recording (r : Rig κ) (record : Bool) (limit : Nat) (hook : η) (out : Outlets)
    (k : Nat) : (r.recording record limit).callAt hook out k = r.callAt hook out k := by
  let sink := Delivery.mk r.sink (r.started hook out)
  have coin : r.coin = (r.recording record limit).coin := rfl
  have related : (r.loop hook sink k).Related
      (Progress.Agree Eq r.settings.keep (r.recording record limit).settings.keep)
      ((r.recording record limit).loop hook sink k) :=
    loop_agree (fun _ _ d same => by rw [same]) coin hook rfl k
  cases reached : r.loop hook sink k with
  | returned p =>
      rw [reached] at related
      rcases related.of_returned with ⟨q, reached', states⟩
      rw [callAt_of_reached reached, callAt_of_reached (p := q) reached', states.nextCall]
  | panicked p message =>
      rw [reached] at related
      rcases related.of_panicked with ⟨q, reached', -⟩
      rw [callAt_of_panicked reached, callAt_of_panicked (p := q) reached']

theorem driven_of_completed {r : Rig κ} {hook : η} {elapsed : Elapsed} {out : Outlets}
    {s : Summary} (h : (r.run hook elapsed out).ending = .completed s) :
    ∃ q, r.loop hook (Delivery.mk r.sink (r.started hook out)) r.settings.iterations.toNat =
      .returned q ∧ s = r.summary q elapsed := by
  unfold run Drive.conclude at h
  split at h
  case h_1 q ended =>
    cases h
    exact ⟨q, ended, rfl⟩
  case h_2 => cases h

theorem call_of_recorded {r : Rig κ} {hook : η} {out : Outlets} {q : Progress κ Delivery η}
    {limit n : Nat} (keep : r.settings.keep = some limit)
    (h : r.loop hook (Delivery.mk r.sink (r.started hook out)) n = .returned q) {k : Nat}
    (bound : k < q.trace.length) :
    ∃ found left, r.callAt hook out k = some (found, left) ∧
      q.trace[k].before = (Program.sum.run ⟨Routine.name hook, .ofNat k⟩ found).1 ∧
      q.trace[k].afterHook = left.sum := by
  unfold loop at h
  rw [keep] at h
  rcases (Progress.trace_of_advance rfl h).2 k bound with
    ⟨p, hook', left, reached, call, entry⟩
  have reached' : r.loop hook (Delivery.mk r.sink (r.started hook out)) k = .returned p := by
    rw [loop, keep, reached]
  have made : r.callAt hook out k = some (p.bench, left) := by
    rw [callAt_of_reached reached', Progress.nextCall, call]
  rw [entry]
  exact ⟨p.bench, left, made, rfl, rfl⟩

/-- The trace of a completed run has a step for every iteration that there was room for, with the
sums that its call found and left. What is recorded makes no difference to the calls. -/
theorem trace_tells_the_run (r : Rig κ) (valid : r.settings.problem? = none) (hook : η)
    (elapsed : Elapsed) (out : Outlets) (s : Summary)
    (completed : (r.run hook elapsed out).ending = .completed s) :
    let n := r.settings.iterations.toNat
    (s.trace = none ↔ r.settings.recordTrace = false) ∧
      (∀ steps, s.trace = some steps →
        steps.length = min n r.settings.traceLimit ∧
        (∀ k (bound : k < steps.length),
          steps[k].iteration.index.toNat = k ∧
          steps[k].afterAdd.toInt = (steps[k].afterHook.toInt + k).bmod (2 ^ 64) ∧
          ∃ found left, r.callAt hook out k = some (found, left) ∧
            steps[k].before = (Program.sum.run ⟨Routine.name hook, .ofNat k⟩ found).1 ∧
            steps[k].afterHook = left.sum) ∧
        (∀ bound : 0 < steps.length, steps[0].before = 0) ∧
        (∀ k (bound : k < steps.length) (next : k + 1 < steps.length),
          steps[k + 1].before = steps[k].afterAdd) ∧
        (0 < n → n ≤ r.settings.traceLimit →
          steps.getLast?.map (·.afterAdd) = some s.sum)) ∧
      s.metrics.calls = r.settings.iterations ∧ (∀ k < n, (r.callAt hook out k).isSome) ∧
      ∀ record limit k,
        (r.recording record limit).callAt hook out k = r.callAt hook out k := by
  intro n
  have small : n < 2 ^ 63 := Settings.iterations_lt valid
  rcases driven_of_completed completed with ⟨q, driven, rfl⟩
  refine ⟨?_, ?_, ?_, ?_, ?_⟩
  · rw [← Settings.keep_eq_none_iff, summary, Option.map_eq_none_iff]
  · intro steps recorded
    rcases Option.map_eq_some_iff.mp recorded with ⟨limit, keep, rfl⟩
    have calls (k : Nat) (bound : k < q.trace.length) := call_of_recorded keep driven bound
    unfold loop at driven
    rw [keep, Settings.traceLimit_of_keep keep] at driven
    have length := (Progress.trace_of_advance rfl driven).1
    have linked := Progress.linked_of_advance driven
    refine ⟨length, ?_, linked.first, fun k _ next => linked.next k next, ?_⟩
    · intro k bound
      have below : k < 2 ^ 63 := by omega
      refine ⟨?_, ?_, calls k bound⟩
      · rw [linked.iteration k bound, Iteration.toNat_ofNat below]
      · rw [linked.added k bound, Int64.toInt_add, Iteration.toInt_addend_ofNat below]
    · intro positive fits
      rcases Nat.exists_eq_add_of_lt positive with ⟨m, last⟩
      rw [show r.settings.iterations.toNat = m + 1 by omega] at driven
      exact Progress.last_of_advance (by omega) driven
  · exact Progress.metrics_calls_of_advance driven
  · intro k earlier
    rcases Progress.nextCall_of_advance earlier driven with ⟨p, reached, made⟩
    rw [callAt_of_reached reached]
    exact made
  · intro record limit k
    exact callAt_recording r record limit hook out k

/-- Room for half of the iterations: the addition in the last step that is recorded wraps, and
the calls past it are made all the same. -/
theorem trace_tells_the_run_capped :
    let r : Rig Coin :=
      { settings := { iterations := 4, recordTrace := true, traceLimit := 2 },
        coin := .fixed false }
    let hook : Script := ⟨"saturate", [⟨.among [1], [.store Int64.maxValue]⟩]⟩
    r.settings.problem? = none ∧ ∃ s steps, (r.run hook {} {}).ending = .completed s ∧
      s.trace = some steps ∧ steps.length = 2 ∧
      (∀ bound : 1 < steps.length, ∃ found left, r.callAt hook {} 1 = some (found, left) ∧
        steps[1].before = found.sum ∧ steps[1].afterHook = left.sum) ∧
      s.metrics.calls = 4 ∧ (r.callAt hook {} 3).isSome := by
  intro r hook
  have valid : r.settings.problem? = none := by decide +kernel
  have completes : (r.run hook {} {}).ending.summary?.isSome = true := by decide
  rcases Ending.exists_completed completes with ⟨s, ending⟩
  rcases trace_tells_the_run r valid hook {} {} s ending with ⟨absent, told, calls, made, -⟩
  cases recorded : s.trace with
  | none => cases absent.mp recorded
  | some steps =>
      rcases told steps recorded with ⟨length, steps_told, -⟩
      refine ⟨valid, s, steps, ending, recorded, length, ?_, calls, made 3 (by decide)⟩
      intro bound
      exact (steps_told 1 bound).2.2

end Rig

end HookRig
