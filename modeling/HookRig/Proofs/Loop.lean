import HookRig.Run.Progress

/-! # The calculus of the loop

What one iteration does is said once, and what a run of iterations does follows
from it in three ways: a property that returning iterations keep, a property that
makes every iteration return, and a relation that two loops keep step by step.
-/

namespace HookRig

namespace Outcome

variable {σ τ : Type}

inductive Related (R : σ → τ → Prop) : Outcome σ → Outcome τ → Prop
  | returned {s : σ} {t : τ} (states : R s t) : Related R (.returned s) (.returned t)
  | panicked {s : σ} {t : τ} {message : String} (states : R s t) :
      Related R (.panicked s message) (.panicked t message)

theorem Related.of_returned {R : σ → τ → Prop} {s : σ} {o : Outcome τ}
    (h : Related R (.returned s) o) : ∃ t, o = .returned t ∧ R s t := by
  cases h with
  | returned states => exact ⟨_, rfl, states⟩

theorem Related.of_panicked {R : σ → τ → Prop} {s : σ} {message : String} {o : Outcome τ}
    (h : Related R (.panicked s message) o) : ∃ t, o = .panicked t message ∧ R s t := by
  cases h with
  | panicked states => exact ⟨_, rfl, states⟩

end Outcome

namespace Progress

variable {κ σ η : Type}

@[simp] theorem calls_complete (p : Progress κ σ η) (keep : Option Nat) (hook : η)
    (bench : Bench κ σ) : (p.complete keep hook bench).calls = p.calls + 1 := rfl

@[simp] theorem bench_complete (p : Progress κ σ η) (keep : Option Nat) (hook : η)
    (bench : Bench κ σ) : (p.complete keep hook bench).bench = bench.addIndex p.index := rfl

variable [CoinSource κ] [Receiver σ] [Routine η] {name : String} {keep : Option Nat}

theorem step_of_call {p : Progress κ σ η} {hook : η} {bench : Bench κ σ}
    (h : p.bench.callAs name p.hook p.index = (.returned hook, bench)) :
    p.step name keep = .returned (p.complete keep hook bench) := by
  simp [step, h]

theorem step_returned {p q : Progress κ σ η} (h : p.step name keep = .returned q) :
    ∃ hook bench, p.bench.callAs name p.hook p.index = (.returned hook, bench) ∧
      q = p.complete keep hook bench := by
  unfold step at h
  split at h
  case h_1 hook bench call =>
    cases h
    exact ⟨hook, bench, call, rfl⟩
  case h_2 => cases h

theorem step_panicked {p q : Progress κ σ η} {message : String}
    (h : p.step name keep = .panicked q message) :
    ∃ hook bench, p.bench.callAs name p.hook p.index = (.panicked hook message, bench) ∧
      q = { p with hook, bench } := by
  unfold step at h
  split at h
  case h_1 => cases h
  case h_2 hook own bench call =>
    cases h
    exact ⟨hook, bench, call, rfl⟩

theorem calls_of_step {p q : Progress κ σ η} (h : p.step name keep = .returned q) :
    q.calls = p.calls + 1 := by
  obtain ⟨hook, bench, -, rfl⟩ := step_returned h
  rfl

theorem advance_succ_of_returned {n : Nat} {p q : Progress κ σ η}
    (h : advance name keep n p = .returned q) :
    advance name keep (n + 1) p = q.step name keep := by
  rw [advance_add, h]
  simp only [advance]
  cases q.step name keep <;> rfl

theorem advance_succ_returned {n : Nat} {p q : Progress κ σ η}
    (h : advance name keep (n + 1) p = .returned q) :
    ∃ m, advance name keep n p = .returned m ∧ m.step name keep = .returned q := by
  cases first : advance name keep n p with
  | returned m => exact ⟨m, rfl, (advance_succ_of_returned first).symm.trans h⟩
  | panicked m message =>
      rw [advance_add, first] at h
      cases h

/-- A panic comes from one of the iterations, and all before it return. -/
theorem advance_panicked {n : Nat} {p q : Progress κ σ η} {message : String}
    (h : advance name keep n p = .panicked q message) :
    ∃ k < n, ∃ m, advance name keep k p = .returned m ∧ m.step name keep = .panicked q message := by
  induction n with
  | zero => cases h
  | succ n ih =>
      cases first : advance name keep n p with
      | returned m =>
          rw [advance_succ_of_returned first] at h
          exact ⟨n, Nat.lt_succ_self n, m, first, h⟩
      | panicked m own =>
          rw [advance_add, first] at h
          obtain ⟨k, lt, m, reached, stopped⟩ := ih (first.trans h)
          exact ⟨k, Nat.lt_succ_of_lt lt, m, reached, stopped⟩

/-- What returning iterations keep, as long as their indices stay below a bound. -/
theorem advance_invariant {I : Progress κ σ η → Prop} {bound : Nat}
    (keeps : ∀ p q, p.calls < bound → I p → p.step name keep = .returned q → I q)
    {n : Nat} {p q : Progress κ σ η} (start : I p) (room : p.calls + n ≤ bound)
    (h : advance name keep n p = .returned q) : I q := by
  induction n generalizing p with
  | zero =>
      cases h
      exact start
  | succ n ih =>
      unfold advance at h
      split at h
      case h_1 next stepped =>
        have counted := calls_of_step stepped
        exact ih (keeps p next (by omega) start stepped) (by omega) h
      case h_2 => cases h

theorem calls_of_advance {n : Nat} {p q : Progress κ σ η}
    (h : advance name keep n p = .returned q) : q.calls = p.calls + n := by
  induction n generalizing p with
  | zero =>
      cases h
      rfl
  | succ n ih =>
      unfold advance at h
      split at h
      case h_1 next stepped =>
        rw [ih h, calls_of_step stepped]
        omega
      case h_2 => cases h

theorem metrics_calls_of_advance {n : UInt64} {hook : η} {coin : κ} {sink : σ}
    {p : Progress κ σ η}
    (h : advance name keep n.toNat (.start hook coin sink) = .returned p) :
    p.metrics.calls = n := by
  have calls : p.calls = n.toNat := (calls_of_advance h).trans (Nat.zero_add _)
  rw [metrics, calls, UInt64.ofNat_toNat]

theorem index_of_advance {n : Nat} {hook : η} {coin : κ} {sink : σ} {p : Progress κ σ η}
    (h : advance name keep n (.start hook coin sink) = .returned p) : p.index = .ofNat n := by
  rw [Progress.index, calls_of_advance h]
  exact congrArg Iteration.ofNat (Nat.zero_add n)

/-- Iterations that all return: each finds the property that makes it return, and
leaves it to the next. -/
theorem advance_returns {I : Progress κ σ η → Prop} {bound : Nat}
    (proceeds : ∀ p, I p → p.calls < bound →
      ∃ q, p.step name keep = .returned q ∧ I q)
    {n : Nat} {p : Progress κ σ η} (start : I p) (room : p.calls + n ≤ bound) :
    ∃ q, advance name keep n p = .returned q ∧ I q ∧ q.calls = p.calls + n := by
  induction n generalizing p with
  | zero => exact ⟨p, rfl, start, rfl⟩
  | succ n ih =>
      obtain ⟨next, stepped, inv⟩ := proceeds p start (by omega)
      have counted := calls_of_step stepped
      obtain ⟨q, run, inv', calls⟩ := ih inv (by omega)
      refine ⟨q, ?_, inv', by omega⟩
      simp only [advance, stepped, run]

/-- Two loops stay related if each iteration keeps them so. -/
theorem advance_related {τ θ : Type} [Receiver τ] [Routine θ] {name' : String}
    {keep' : Option Nat} {R : Progress κ σ η → Progress κ τ θ → Prop}
    (steps : ∀ p q, R p q → (p.step name keep).Related R (q.step name' keep'))
    (n : Nat) {p : Progress κ σ η} {q : Progress κ τ θ} (start : R p q) :
    (advance name keep n p).Related R (advance name' keep' n q) := by
  induction n generalizing p q with
  | zero => exact .returned start
  | succ n ih =>
      have related := steps p q start
      unfold advance
      cases stepped : p.step name keep with
      | returned p' =>
          rw [stepped] at related
          obtain ⟨q', stepped', states⟩ := related.of_returned
          rw [stepped']
          exact ih states
      | panicked p' message =>
          rw [stepped] at related
          obtain ⟨q', stepped', states⟩ := related.of_panicked
          rw [stepped']
          exact .panicked states

end Progress

end HookRig
