import HookRig.Proofs.Agreement

/-! # The history of a run

The history of a run is the trace it would record if there were room for every step. What
a run does record is the beginning of its history. Each entry of it tells of one call: the
sum that the iterations before it left, the sum after the call, and the sum after the
addition of the index.
-/

namespace HookRig

/-- Steps at the indices from zero on. The first starts from zero and each other one from the sum
that the step before it ended with, and all of them end with the addition of their index. -/
structure TraceStep.Linked (steps : List TraceStep) : Prop where
  iteration : ∀ i (bound : i < steps.length), steps[i].iteration = .ofNat i
  first : ∀ bound : 0 < steps.length, steps[0].before = 0
  next : ∀ i (bound : i + 1 < steps.length), steps[i + 1].before = steps[i].afterAdd
  added : ∀ i (bound : i < steps.length),
    steps[i].afterAdd = steps[i].afterHook + (Iteration.ofNat i).addend

namespace Progress

variable {κ σ η : Type} [CoinSource κ] [Receiver σ] [Routine η] {name : String}

def entry (p : Progress κ σ η) (after : Bench κ σ) : TraceStep :=
  ⟨p.index, p.bench.sum, after.sum, (after.addIndex p.index).sum⟩

/-- While there is room, every iteration makes its entry, and no later one changes it. -/
theorem trace_of_advance {limit : Nat} {first : Progress κ σ η} (trace : first.trace = [])
    {n : Nat} {q : Progress κ σ η}
    (h : advance name (some limit) n first = .returned q) :
    q.trace.length = min n limit ∧ ∀ i (bound : i < q.trace.length), ∃ p hook bench,
      advance name (some limit) i first = .returned p ∧
        p.bench.callAs name p.hook p.index = (.returned hook, bench) ∧
        q.trace[i] = p.entry bench := by
  induction n generalizing q with
  | zero =>
      cases h
      simp [trace]
  | succ n ih =>
      rcases advance_succ_returned h with ⟨p, reached, stepped⟩
      rcases step_returned stepped with ⟨hook, bench, call, rfl⟩
      rcases ih reached with ⟨length, earlier⟩
      -- Up to the limit each iteration adds its entry, and past it none does.
      by_cases room : n < limit
      · have added : (p.complete (some limit) hook bench).trace = p.trace ++ [p.entry bench] := by
          rw [trace_complete, if_pos (by simp; omega)]
          rfl
        have position : p.trace.length = n := by omega
        constructor
        · simp [added]
          omega
        intro i bound
        by_cases old : i < p.trace.length
        · rcases earlier i old with ⟨p', hook', bench', reached', call', same⟩
          refine ⟨p', hook', bench', reached', call', ?_⟩
          simp only [added, List.getElem_append_left old, same]
        · have last : i = n := by
            simp only [added, List.length_append, List.length_singleton] at bound
            omega
          subst last
          refine ⟨p, hook, bench, reached, call, ?_⟩
          simp only [added, ← position, List.getElem_concat_length]
      · have full : (p.complete (some limit) hook bench).trace = p.trace := by
          rw [trace_complete, if_neg (by simp; omega), List.append_nil]
        rw [full]
        exact ⟨by omega, earlier⟩

theorem linked_of_advance {limit n : Nat} {hook : η} {coin : κ} {sink : σ} {q : Progress κ σ η}
    (h : advance name (some limit) n (.start hook coin sink) = .returned q) :
    TraceStep.Linked q.trace := by
  have entries := (trace_of_advance rfl h).2
  constructor
  · intro i bound
    rcases entries i bound with ⟨p, hook', bench, reached, -, entry⟩
    rw [entry]
    exact index_of_advance reached
  · intro bound
    rcases entries 0 bound with ⟨p, hook', bench, reached, -, entry⟩
    rw [entry]
    cases reached
    rfl
  · intro i bound
    rcases entries i (Nat.lt_of_succ_lt bound) with ⟨p, hook', bench, reached, call, entry⟩
    rcases entries (i + 1) bound with ⟨p', _, _, reached', -, entry'⟩
    have stepped : p.step name (some limit) = .returned p' :=
      (advance_succ_of_returned reached).symm.trans reached'
    rw [step_of_call call] at stepped
    cases stepped
    rw [entry, entry']
    rfl
  · intro i bound
    rcases entries i bound with ⟨p, hook', bench, reached, -, entry⟩
    rw [entry, Progress.entry, index_of_advance reached]
    rfl

/-- If there is room for the last entry, it ends with the sum that the loop ends with. -/
theorem last_of_advance {limit n : Nat} {hook : η} {coin : κ} {sink : σ} {q : Progress κ σ η}
    (room : n < limit)
    (h : advance name (some limit) (n + 1) (.start hook coin sink) = .returned q) :
    q.trace.getLast?.map (·.afterAdd) = some q.bench.sum := by
  rcases advance_succ_returned h with ⟨p, reached, stepped⟩
  rcases step_returned stepped with ⟨hook', bench, -, rfl⟩
  have length := (trace_of_advance rfl reached).1
  rw [trace_complete, if_pos (by simp; omega)]
  simp

end Progress

namespace Rig

variable {κ η : Type}

def traced (r : Rig κ) : Rig κ :=
  { r with settings := { r.settings with
      recordTrace := true, traceLimit := r.settings.iterations.toNat } }

variable [CoinSource κ] [Routine η]

theorem onLedger_traced (r : Rig κ) (hook : η) :
    r.traced.onLedger hook = (Progress.start hook r.coin {}).advance (Routine.name hook)
      (some r.settings.iterations.toNat) r.settings.iterations.toNat := rfl

/-- The sums around every iteration of a run, whatever is kept of them. -/
def history (r : Rig κ) (hook : η) : List TraceStep := (r.traced.onLedger hook).state.trace

theorem traced_of_returned {r : Rig κ} {hook : η} {p : Progress κ Ledger η}
    (h : r.onLedger hook = .returned p) :
    ∃ q, r.traced.onLedger hook = .returned q ∧ q.trace = r.history hook ∧
      p.Agree Eq r.settings.keep (some r.settings.iterations.toNat) q := by
  have coin : r.coin = r.traced.coin := rfl
  have sinks : ({} : Ledger) = {} := rfl
  have related : (r.onLedger hook).Related
      (Progress.Agree Eq r.settings.keep (some r.settings.iterations.toNat))
      (r.traced.onLedger hook) :=
    loop_agree (fun _ _ d same => by rw [same]) coin hook sinks _
  rw [h] at related
  obtain ⟨q, traced, agree⟩ := related.of_returned
  refine ⟨q, traced, ?_, agree⟩
  rw [history, traced]
  rfl

theorem calls_of_returned {r : Rig κ} {hook : η} {p : Progress κ Ledger η}
    (h : r.onLedger hook = .returned p) : p.calls = r.settings.iterations.toNat := by
  rw [Progress.calls_of_advance h]
  exact Nat.zero_add _

/-- What a completed run records is what there was room for of its history. -/
theorem trace_of_returned {r : Rig κ} {hook : η} {p : Progress κ Ledger η}
    (h : r.onLedger hook = .returned p) (elapsed : Elapsed) :
    (r.summary p elapsed).trace = r.settings.keep.map (r.history hook).take := by
  obtain ⟨q, -, trace, agree⟩ := traced_of_returned h
  obtain ⟨steps, length, recorded, recorded'⟩ := agree.books.trace
  have whole : r.history hook = steps := by
    rw [← trace, recorded', kept, List.take_of_length_le]
    exact Nat.le_of_eq (length.trans (calls_of_returned h))
  rw [summary, recorded, whole]
  cases r.settings.keep <;> rfl

/-- The history of a run is the trace of the iterations that were completed. The call that
panics, if one does, makes no entry. -/
theorem history_reached (r : Rig κ) (hook : η) :
    ∃ k ≤ r.settings.iterations.toNat, ∃ m : Progress κ Ledger η,
      r.traced.loop hook {} k = .returned m ∧ r.history hook = m.trace := by
  cases ended : r.traced.onLedger hook with
  | returned p =>
      refine ⟨r.settings.iterations.toNat, Nat.le_refl _, p, ended, ?_⟩
      rw [history, ended]
      rfl
  | panicked p message =>
      rcases Progress.advance_panicked ended with ⟨k, lt, m, reached, stopped⟩
      rcases Progress.step_panicked stopped with ⟨hook', bench, -, rfl⟩
      refine ⟨k, Nat.le_of_lt lt, m, reached, ?_⟩
      rw [history, ended]
      rfl

theorem length_history_le (r : Rig κ) (hook : η) :
    (r.history hook).length ≤ r.settings.iterations.toNat := by
  rcases r.history_reached hook with ⟨k, le, m, reached, trace⟩
  rw [trace, (Progress.trace_of_advance rfl reached).1]
  exact Nat.min_le_right _ _

/-- What the history says of an iteration is what the iterations before it lead to. -/
theorem history_entry (r : Rig κ) (hook : η) {i : Nat} (bound : i < (r.history hook).length) :
    ∃ q hook' bench, r.traced.loop hook ({} : Ledger) i = .returned q ∧
      q.bench.callAs (Routine.name hook) q.hook q.index = (.returned hook', bench) ∧
      (r.history hook)[i] = q.entry bench := by
  rcases r.history_reached hook with ⟨k, le, m, reached, trace⟩
  have entries := (Progress.trace_of_advance rfl reached).2
  simp only [trace]
  exact entries i (trace ▸ bound)

theorem history_at {r : Rig κ} {hook : η} {p : Progress κ Ledger η}
    (h : r.onLedger hook = .returned p) :
    (r.history hook).length = r.settings.iterations.toNat ∧
      ∀ i (bound : i < (r.history hook).length), ∃ q hook' bench,
        r.traced.loop hook ({} : Ledger) i = .returned q ∧
          q.bench.callAs (Routine.name hook) q.hook q.index = (.returned hook', bench) ∧
          (r.history hook)[i] = q.entry bench := by
  obtain ⟨q, traced, trace, -⟩ := traced_of_returned h
  rw [onLedger_traced] at traced
  have length := (Progress.trace_of_advance rfl traced).1
  rw [Nat.min_self] at length
  exact ⟨trace ▸ length, fun i bound => r.history_entry hook bound⟩

/-- However a run ends, the entries of its history follow from one another. -/
theorem linked_history (r : Rig κ) (hook : η) : TraceStep.Linked (r.history hook) := by
  rcases r.history_reached hook with ⟨k, le, m, reached, trace⟩
  rw [trace]
  exact Progress.linked_of_advance reached

/-- What every iteration keeps holds before each call that the history tells of. -/
theorem history_invariant {r : Rig κ} {hook : η} {I : Progress κ Ledger η → Prop}
    (keeps : ∀ p q, p.calls < r.settings.iterations.toNat → I p →
      p.step (Routine.name hook) r.traced.settings.keep = .returned q → I q)
    (start : I (.start hook r.coin {})) {p : Progress κ Ledger η}
    (h : r.onLedger hook = .returned p) {i : Nat} (bound : i < (r.history hook).length) :
    ∃ q hook' bench, I q ∧ q.calls = i ∧
      q.bench.callAs (Routine.name hook) q.hook q.index = (.returned hook', bench) ∧
      (r.history hook)[i] = q.entry bench := by
  obtain ⟨length, entries⟩ := history_at h
  obtain ⟨q, hook', bench, reached, call, entry⟩ := entries i bound
  have room : 0 + i ≤ r.settings.iterations.toNat := by omega
  have calls : q.calls = 0 + i := Progress.calls_of_advance reached
  refine ⟨q, hook', bench, ?_, by omega, call, entry⟩
  exact Progress.advance_invariant keeps start room reached

end Rig

end HookRig
