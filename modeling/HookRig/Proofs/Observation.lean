import HookRig.Hook.Script
import HookRig.Proofs.Agreement

/-! # Observation does not interfere

Neither the sink of a run nor the journal nor the trace has an effect on what its
iterations compute. The same holds of the checks that a hook makes: hooks that act
the same compute the same, whatever else they read, check or note and however many
of their checks fail.
-/

namespace HookRig

/-- Requests that leave the sum, the coin and the counts of negations and draws as
they are. -/
def Request.passive : Request → Bool
  | .iteration | .sum | .counters | .check _ _ | .note _ => true
  | .store _ | .antiOp | .draw => false

/-- Programs that act the same and reach related results. A passive request may stand
on one side only, if its reply does not matter. The replies about the counters may
differ in the failures. -/
inductive Program.Alike {α β : Type} (R : α → β → Prop) : Program α → Program β → Prop
  | done {a : α} {b : β} (results : R a b) : Alike R (.done a) (.done b)
  | ask {r : Request} {next : r.Reply → Program α} {next' : r.Reply → Program β}
      (uncounted : r ≠ .counters) (rest : ∀ reply, Alike R (next reply) (next' reply)) :
      Alike R (.ask r next) (.ask r next')
  | counters {next : Counters → Program α} {next' : Counters → Program β}
      (rest : ∀ c c' : Counters, c.negations = c'.negations → c.draws = c'.draws →
        Alike R (next c) (next' c')) :
      Alike R (.ask .counters next) (.ask .counters next')
  | left {r : Request} {next : r.Reply → Program α} {q : Program β} (passive : r.passive = true)
      (rest : ∀ reply, Alike R (next reply) q) : Alike R (.ask r next) q
  | right {r : Request} {p : Program α} {next : r.Reply → Program β} (passive : r.passive = true)
      (rest : ∀ reply, Alike R p (next reply)) : Alike R p (.ask r next)

def Routine.Alike {η θ : Type} [Routine η] [Routine θ] (hook : η) (hook' : θ) : Prop :=
  ∃ R : η → θ → Prop, R hook hook' ∧
    ∀ h h', R h h' → (Routine.call h).Alike (Outcome.Related R) (Routine.call h')

namespace Bench

variable {κ σ τ : Type}

structure Alike (b : Bench κ σ) (c : Bench κ τ) : Prop where
  accumulator : b.accumulator = c.accumulator
  coin : b.coin = c.coin
  negations : b.counters.negations = c.counters.negations
  draws : b.counters.draws = c.counters.draws

theorem Alike.symm {b : Bench κ σ} {c : Bench κ τ} (h : b.Alike c) : c.Alike b :=
  ⟨h.accumulator.symm, h.coin.symm, h.negations.symm, h.draws.symm⟩

variable [CoinSource κ] [Receiver σ] [Receiver τ]

/-- The names that failures are reported under may differ. -/
theorem Alike.answer {b : Bench κ σ} {c : Bench κ τ} (h : b.Alike c) (site site' : Site)
    (same : site.iteration = site'.iteration) {r : Request} (uncounted : r ≠ .counters) :
    (b.answer site r).1 = (c.answer site' r).1 ∧
      (b.answer site r).2.Alike (c.answer site' r).2 := by
  obtain ⟨acc, coin, s, ⟨negations, draws, failures⟩, noted⟩ := b
  obtain ⟨acc', coin', t, ⟨negations', draws', failures'⟩, noted'⟩ := c
  obtain ⟨rfl, rfl, rfl, rfl⟩ := h
  cases r with
  | counters => contradiction
  | iteration => exact ⟨same, rfl, rfl, rfl, rfl⟩
  | sum | store | antiOp | draw | note => exact ⟨rfl, rfl, rfl, rfl, rfl⟩
  | check holds message => cases holds <;> exact ⟨rfl, rfl, rfl, rfl, rfl⟩

omit [Receiver τ] in
theorem Alike.passive {b : Bench κ σ} {c : Bench κ τ} (h : b.Alike c) (site : Site) {r : Request}
    (passive : r.passive = true) : (b.answer site r).2.Alike c := by
  cases r with
  | iteration | sum | counters | note => exact ⟨h.accumulator, h.coin, h.negations, h.draws⟩
  | check holds message => cases holds <;> exact ⟨h.accumulator, h.coin, h.negations, h.draws⟩
  | store | antiOp | draw => contradiction

end Bench

theorem Program.Alike.run {κ σ τ α β : Type} [CoinSource κ] [Receiver σ] [Receiver τ]
    {R : α → β → Prop} {p : Program α} {q : Program β} (h : p.Alike R q) (site site' : Site)
    (same : site.iteration = site'.iteration) {b : Bench κ σ} {c : Bench κ τ} (start : b.Alike c) :
    R (p.run site b).1 (q.run site' c).1 ∧ (p.run site b).2.Alike (q.run site' c).2 := by
  -- A passive request on one side only is a step of that side alone.
  induction h generalizing b c with
  | done results => exact ⟨results, start⟩
  | ask uncounted rest ih =>
      obtain ⟨reply, after⟩ := start.answer site site' same uncounted
      simp only [Program.run]
      rw [reply]
      exact ih _ after
  | counters rest ih => exact ih _ _ start.negations start.draws start
  | left passive rest ih => exact ih _ (start.passive site passive)
  | right passive rest ih => exact ih _ (start.symm.passive site' passive).symm

def Metrics.SameButAssertions (m m' : Metrics) : Prop :=
  m.calls = m'.calls ∧ m.negations = m'.negations ∧ m.draws = m'.draws ∧
    m.internalFailures = m'.internalFailures

namespace Progress

variable {κ σ τ η θ : Type} {keep keep' : Option Nat}

structure Alike (R : η → θ → Prop) (keep keep' : Option Nat) (p : Progress κ σ η)
    (q : Progress κ τ θ) : Prop where
  hook : R p.hook q.hook
  bench : p.bench.Alike q.bench
  books : p.Matches keep keep' q

variable [CoinSource κ] [Receiver σ] [Receiver τ] [Routine η] [Routine θ]
variable {R : η → θ → Prop} {p : Progress κ σ η} {q : Progress κ τ θ}

theorem Alike.step (h : p.Alike R keep keep' q)
    (calls : ∀ h h', R h h' → (Routine.call h).Alike (Outcome.Related R) (Routine.call h'))
    (name name' : String) :
    (p.step name keep).Related (Alike R keep keep') (q.step name' keep') := by
  have index : p.index = q.index := by rw [Progress.index, Progress.index, h.books.calls]
  obtain ⟨outcomes, benches⟩ :=
    (calls _ _ h.hook).run ⟨name, p.index⟩ ⟨name', q.index⟩ index h.bench
  unfold Progress.step Bench.callAs
  generalize (Routine.call p.hook).run ⟨name, p.index⟩ p.bench = left at *
  generalize (Routine.call q.hook).run ⟨name', q.index⟩ q.bench = right at *
  obtain ⟨outcome, b⟩ := left
  obtain ⟨outcome', c⟩ := right
  cases outcomes with
  | @returned hook hook' hooks =>
      have books := h.books.complete benches.accumulator hook hook'
      exact .returned ⟨hooks, { benches with accumulator := books.accumulator }, books⟩
  | panicked hooks =>
      exact .panicked ⟨hooks, benches, { h.books with accumulator := benches.accumulator }⟩

omit [CoinSource κ] [Receiver σ] [Receiver τ] [Routine η] [Routine θ] in
theorem Alike.metrics (h : p.Alike R keep keep' q) : p.metrics.SameButAssertions q.metrics := by
  refine ⟨congrArg UInt64.ofNat h.books.calls, h.bench.negations, h.bench.draws, ?_⟩
  rw [Progress.metrics, Progress.metrics, h.books.internalCheck]

end Progress

/-- Runs that ended in the same way and with the same sum, and that recorded traces
of which one starts with the other. -/
inductive Ending.Agree (M : Metrics → Metrics → Prop) : Ending → Ending → Prop
  | completed {s t : Summary} (sum : s.sum = t.sum) (metrics : M s.metrics t.metrics)
      (trace : ∀ x y, s.trace = some x → t.trace = some y → x <+: y ∨ y <+: x) :
      Agree M (.completed s) (.completed t)
  | panicked {message : String} : Agree M (.panicked message) (.panicked message)

namespace Rig

variable {κ η θ : Type}

theorem summaries_agree {σ τ : Type} {M : Metrics → Metrics → Prop} {r s : Rig κ}
    {p : Progress κ σ η} {q : Progress κ τ θ}
    (books : p.Matches r.settings.keep s.settings.keep q) (metrics : M p.metrics q.metrics)
    (elapsed elapsed' : Elapsed) :
    (Ending.completed (r.summary p elapsed)).Agree M (.completed (s.summary q elapsed')) := by
  obtain ⟨steps, -, trace, trace'⟩ := books.trace
  refine .completed ?_ metrics ?_
  · simp only [summary, Bench.sum, books.accumulator]
  · intro x y left right
    obtain ⟨m, keep, rfl⟩ := Option.map_eq_some_iff.mp left
    obtain ⟨n, keep', rfl⟩ := Option.map_eq_some_iff.mp right
    rw [trace, trace', keep, keep']
    exact kept_prefix m n steps

variable [CoinSource κ] [Routine η] [Routine θ]

/-- Runs end as the loops on a ledger do, and so does what relates them. -/
theorem run_related {M : Metrics → Metrics → Prop} {H : η → θ → Prop}
    {Q : Progress κ Ledger η → Progress κ Ledger θ → Prop} {r s : Rig κ} {hook : η} {other : θ}
    (loops : (r.onLedger hook).Related Q (s.onLedger other))
    (books : ∀ p q, Q p q → p.Matches r.settings.keep s.settings.keep q)
    (metrics : ∀ p q, Q p q → M p.metrics q.metrics)
    (hooks : ∀ p q, Q p q → H p.hook q.hook)
    (coins : ∀ p q, Q p q → p.bench.coin = q.bench.coin)
    (elapsed elapsed' : Elapsed) (out out' : Outlets) :
    (r.run hook elapsed out).ending.Agree M (s.run other elapsed' out').ending ∧
      H (r.run hook elapsed out).hook (s.run other elapsed' out').hook ∧
      (r.run hook elapsed out).rig.coin = (s.run other elapsed' out').rig.coin := by
  cases left : r.onLedger hook with
  | returned p =>
      rw [left] at loops
      obtain ⟨q, right, states⟩ := loops.of_returned
      rw [run_of_returned left, run_of_returned right]
      refine ⟨?_, hooks p q states, coins p q states⟩
      exact summaries_agree (books p q states) (metrics p q states) elapsed elapsed'
  | panicked p message =>
      rw [left] at loops
      obtain ⟨q, right, states⟩ := loops.of_panicked
      rw [run_of_panicked left, run_of_panicked right]
      exact ⟨.panicked, hooks p q states, coins p q states⟩

theorem onLedger_alike {r s : Rig κ} (iterations : s.settings.iterations = r.settings.iterations)
    (coin : s.coin = r.coin) {hook : η} {other : θ} (alike : Routine.Alike hook other) :
    ∃ R, (r.onLedger hook).Related (Progress.Alike R r.settings.keep s.settings.keep)
      (s.onLedger other) := by
  obtain ⟨R, hooks, calls⟩ := alike
  refine ⟨R, ?_⟩
  unfold onLedger loop
  rw [iterations, coin]
  refine Progress.advance_related (fun p q h => h.step calls _ _) _ ⟨hooks, ?_, ?_⟩
  · exact ⟨rfl, rfl, rfl, rfl⟩
  · exact .start hook other r.coin _ _

theorem run_alike {r s : Rig κ} (iterations : s.settings.iterations = r.settings.iterations)
    (coin : s.coin = r.coin) {hook : η} {other : θ} (alike : Routine.Alike hook other)
    (elapsed elapsed' : Elapsed) (out out' : Outlets) :
    (r.run hook elapsed out).ending.Agree Metrics.SameButAssertions
        (s.run other elapsed' out').ending ∧
      (r.run hook elapsed out).rig.coin = (s.run other elapsed' out').rig.coin := by
  obtain ⟨R, loops⟩ := onLedger_alike iterations coin alike
  obtain ⟨endings, -, coins⟩ := run_related loops (fun _ _ h => h.books) (fun _ _ h => h.metrics)
    (fun _ _ h => h.hook) (fun _ _ h => h.bench.coin) elapsed elapsed' out out'
  exact ⟨endings, coins⟩

/-- What is observed of a run makes no difference to what it computes: neither the sinks and the
trace, nor the checks of its hook. -/
theorem observation_does_not_interfere (r s : Rig κ) (hook : η)
    (settings : ∃ record limit,
      s.settings = { r.settings with recordTrace := record, traceLimit := limit })
    (coin : s.coin = r.coin) (elapsed elapsed' : Elapsed) (out out' : Outlets) :
    (r.run hook elapsed out).ending.Agree Eq (s.run hook elapsed' out').ending ∧
      (r.run hook elapsed out).hook = (s.run hook elapsed' out').hook ∧
      (r.run hook elapsed out).rig.coin = (s.run hook elapsed' out').rig.coin ∧
      ∀ (θ : Type) [Routine θ] (other : θ), Routine.Alike hook other →
        (r.run hook elapsed out).ending.Agree Metrics.SameButAssertions
            (s.run other elapsed' out').ending ∧
          (r.run hook elapsed out).rig.coin = (s.run other elapsed' out').rig.coin := by
  have iterations : s.settings.iterations = r.settings.iterations := by
    obtain ⟨record, limit, same⟩ := settings
    rw [same]
  have loops : (r.onLedger hook).Related
      (Progress.Agree (fun _ _ => True) r.settings.keep s.settings.keep) (s.onLedger hook) := by
    unfold onLedger
    rw [iterations]
    exact loop_agree (fun _ _ _ _ => trivial) coin.symm hook trivial _
  obtain ⟨endings, hooks, coins⟩ := run_related loops (fun _ _ h => h.books)
    (fun _ _ h => h.metrics) (fun _ _ h => h.hook) (fun _ _ h => h.bench.coin)
    elapsed elapsed' out out'
  refine ⟨endings, hooks, coins, ?_⟩
  intro θ _ other alike
  exact run_alike iterations coin alike elapsed elapsed' out out'

end Rig

/-- A hook that only fails checks acts like one that does nothing. -/
theorem Hook.failing_alike_noop {ε : Type} [Routine ε] (period : UInt64) :
    Routine.Alike (Hook.failing period : Hook ε) (Hook.noop : Hook ε) := by
  refine ⟨fun h h' => h = .failing period ∧ h' = .noop, ⟨rfl, rfl⟩, ?_⟩
  rintro _ _ ⟨rfl, rfl⟩
  refine .left rfl fun i => .left rfl fun _ => .done ?_
  exact .returned ⟨rfl, rfl⟩

theorem Rig.observation_does_not_interfere_failing :
    let r : Rig Coin := { settings := { iterations := 5 }, coin := .fixed true }
    let s : Rig Coin := { r with
      settings := { r.settings with recordTrace := true, traceLimit := 3 }
      sink := .buffer 0, phase := .running }
    let full : Outlets := { buffers := (({} : Buffers).fresh).report 0 (.internal "before") }
    let hook : Hook Script := .failing 1
    (r.run hook {} {}).ending.Agree Eq (s.run hook {} full).ending ∧
      (r.run hook {} {}).ending.Agree Metrics.SameButAssertions
        (s.run (Hook.noop : Hook Script) {} full).ending := by
  intro r s full hook
  have same := observation_does_not_interfere r s hook ⟨true, 3, rfl⟩ rfl {} {} {} full
  exact ⟨same.1, (same.2.2.2 _ _ (Hook.failing_alike_noop 1)).1⟩

end HookRig
