import HookRig.Hook.Script
import HookRig.Proofs.Chain
import HookRig.Proofs.History
import HookRig.Proofs.Transcript

/-! # A bench driven by hand

A hook can be tried without a rig, by steps on a bench at one index after the other. Such
steps ask the hook for its name each time, know nothing of a run and keep no books; all the
same they do to the hook and to the bench what a run does. Only the check that a run makes
at its end has no counterpart.
-/

namespace HookRig

def Routine.KeepsName {η : Type} [Routine η] (hook : η) : Prop :=
  ∃ I : η → Prop, I hook ∧ ∀ h, I h → Routine.name h = Routine.name hook ∧
    (Routine.call h).Ensures fun o => I o.state

theorem Routine.KeepsName.call {η : Type} [Routine η] {hook : η} (named : Routine.KeepsName hook) :
    (Routine.call hook).Ensures fun o =>
      Routine.KeepsName o.state ∧ Routine.name o.state = Routine.name hook := by
  obtain ⟨I, holds, keeps⟩ := named
  refine (keeps hook holds).2.mono ?_
  intro o after
  have same := (keeps o.state after).1
  refine ⟨⟨I, after, ?_⟩, same⟩
  intro h inv
  exact ⟨(keeps h inv).1.trans same.symm, (keeps h inv).2⟩

/-- The hooks of the library go by one name each; a hook of another kind has to do so itself. -/
theorem Hook.keepsName {ε : Type} [Routine ε] {hook : Hook ε}
    (custom : ∀ x, hook = .custom x → Routine.KeepsName x) : Routine.KeepsName hook := by
  refine ⟨fun h => h.name = hook.name ∧ ∀ x, h = .custom x → Routine.KeepsName x,
    ⟨rfl, custom⟩, ?_⟩
  rintro h ⟨same, own⟩
  refine ⟨same, ?_⟩
  change (Hook.call h).Ensures _
  cases h with
  | custom x =>
      rw [call]
      refine (own x rfl).call.bind ?_
      rintro o ⟨keeps, name⟩
      refine ⟨?_, ?_⟩
      · rw [Outcome.state_map]
        exact name.trans same
      · intro y eq
        rw [Outcome.state_map] at eq
        cases eq
        exact keeps
  | monitor m =>
      rw [call]
      refine Program.ensures_then _ fun o => ?_
      cases o <;> exact ⟨same, by rintro x ⟨⟩⟩
  | chain name hooks =>
      rw [call]
      refine Program.ensures_then _ fun o => ?_
      cases o <;> exact ⟨same, by rintro x ⟨⟩⟩
  | noop | counting calls =>
      rw [call]
      exact ⟨same, by rintro x ⟨⟩⟩
  | antiOp | recording newestFirst =>
      rw [call]
      exact Program.ensures_then _ fun _ => ⟨same, by rintro x ⟨⟩⟩
  | nondetAntiOp | scheduled schedule =>
      rw [call]
      refine Program.ensures_then _ fun reply => ?_
      split
      · exact Program.ensures_then _ fun _ => ⟨same, by rintro x ⟨⟩⟩
      · exact ⟨same, by rintro x ⟨⟩⟩
  | failing period | tamper delta =>
      rw [call]
      exact Program.ensures_then _ fun _ => Program.ensures_then _ fun _ =>
        ⟨same, by rintro x ⟨⟩⟩
  | signCheck =>
      rw [call]
      exact Program.ensures_then _ fun _ => Program.ensures_then _ fun _ =>
        Program.ensures_then _ fun _ => ⟨same, by rintro x ⟨⟩⟩

namespace Bench

variable {κ σ η : Type} [CoinSource κ] [Receiver σ] [Routine η]

/-- So many steps by hand, at the indices from zero on. -/
def byHand (b : Bench κ σ) (hook : η) : Nat → Outcome η × Bench κ σ
  | 0 => (.returned hook, b)
  | n + 1 =>
      match b.byHand hook n with
      | (.returned hook', c) => c.step hook' (.ofNat n)
      | panicked => panicked

theorem step_of_call {b c : Bench κ σ} {hook hook' : η} {i : Iteration}
    (h : b.call hook i = (.returned hook', c)) :
    b.step hook i = (.returned hook', c.addIndex i) := by
  unfold step
  rw [h]

end Bench

namespace Progress

variable {κ σ η : Type} [CoinSource κ] [Receiver σ] [Routine η] {name : String} {keep : Option Nat}

theorem hook_of_advance {I : η → Prop}
    (keeps : ∀ h, I h → (Routine.call h).Ensures fun o => I o.state) {n : Nat}
    {p q : Progress κ σ η} (start : I p.hook) (h : advance name keep n p = .returned q) :
    I q.hook := by
  refine advance_invariant (I := fun q => I q.hook) ?_ start (Nat.le_refl (p.calls + n)) h
  intro p q _ holds stepped
  obtain ⟨hook, bench, call, rfl⟩ := step_returned stepped
  have after := (keeps p.hook holds).run ⟨name, p.index⟩ p.bench
  have outcome : ((Routine.call p.hook).run ⟨name, p.index⟩ p.bench).1 = .returned hook :=
    congrArg Prod.fst call
  rw [outcome] at after
  exact after

theorem call_of_advance {hook : η} (named : Routine.KeepsName hook) {coin : κ} {sink : σ} {n : Nat}
    {p : Progress κ σ η}
    (h : advance (Routine.name hook) keep n (.start hook coin sink) = .returned p) :
    p.bench.call p.hook (.ofNat n) = p.bench.callAs (Routine.name hook) p.hook p.index := by
  obtain ⟨I, holds, keeps⟩ := named
  have still : I p.hook := hook_of_advance (fun h inv => (keeps h inv).2) holds h
  rw [Bench.call, (keeps p.hook still).1, index_of_advance h]

/-- The bench that a loop has is the one that steps by hand lead to. -/
theorem byHand_of_advance {hook : η} (named : Routine.KeepsName hook) {coin : κ} {sink : σ}
    {n : Nat} {p : Progress κ σ η}
    (h : advance (Routine.name hook) keep n (.start hook coin sink) = .returned p) :
    ({ coin, sink } : Bench κ σ).byHand hook n = (.returned p.hook, p.bench) := by
  induction n generalizing p with
  | zero =>
      cases h
      rfl
  | succ n ih =>
      obtain ⟨q, reached, stepped⟩ := advance_succ_returned h
      obtain ⟨hook', bench, call, rfl⟩ := step_returned stepped
      have called := (call_of_advance named reached).trans call
      rw [Bench.byHand, ih reached]
      simp only
      rw [Bench.step_of_call called, bench_complete, index_of_advance reached]
      rfl

end Progress

namespace Rig

variable {κ η : Type} [CoinSource κ] [Routine η]

/-- Steps by hand do what a completed run does, for a hook that keeps its name: they leave the same
bench but for the check of the run itself, and pass through the sums of its trace. -/
theorem steps_by_hand_simulate_run (r : Rig κ) (hook : η) (named : Routine.KeepsName hook)
    (elapsed : Elapsed) (out : Outlets) :
    let n := r.settings.iterations.toNat
    let bench : Bench κ Ledger := { coin := r.coin, sink := {} }
    let after := r.run hook elapsed out
    (Routine.Calm hook → ∃ s, after.ending = .completed s) ∧
      ∀ s, after.ending = .completed s →
        ∃ b, bench.byHand hook n = (.returned after.hook, b) ∧ b.sum = s.sum ∧
          b.counters =
            ⟨s.metrics.negations, s.metrics.draws, s.metrics.assertionFailures⟩ ∧
          b.coin = after.rig.coin ∧
          b.diagnostics = (r.reported hook).filter (·.isAssertion) ∧
          (out.Serves r.sink → out.Gained after.outlets (r.reported hook) r.sink) ∧
          s.trace = r.settings.keep.map (r.history hook).take ∧ (r.history hook).length = n ∧
          ∀ i (bound : i < (r.history hook).length), ∃ h c h' d,
            bench.byHand hook i = (.returned h, c) ∧ c.call h (.ofNat i) = (.returned h', d) ∧
              (r.history hook)[i] = ⟨.ofNat i, c.sum, d.sum, (d.addIndex (.ofNat i)).sum⟩ := by
  intro n bench after
  constructor
  · intro calm
    obtain ⟨p, returned⟩ : ∃ p, r.onLedger hook = .returned p := Progress.advance_of_calm calm n
    have ended : after = _ := run_of_returned returned elapsed out
    rw [ended]
    exact ⟨_, rfl⟩
  · intro s completed
    obtain ⟨p, returned, rfl⟩ := returned_of_completed completed
    have ended : after = _ := run_of_returned returned elapsed out
    have loop : (Progress.start hook r.coin ({} : Ledger)).advance (Routine.name hook)
        r.settings.keep n = .returned p := returned
    obtain ⟨length, entries⟩ := history_at returned
    refine ⟨p.bench, ?_, rfl, rfl, ?_, (assertions_of_reported returned).symm, ?_,
      trace_of_returned returned elapsed, length, ?_⟩
    · rw [ended]
      exact Progress.byHand_of_advance named loop
    · rw [ended]
    · intro serves
      exact gained_run serves hook elapsed
    · intro i bound
      obtain ⟨q, hook', d, reached, call, entry⟩ := entries i bound
      have earlier := Progress.byHand_of_advance named reached
      have called := (Progress.call_of_advance named reached).trans call
      refine ⟨q.hook, q.bench, hook', d, earlier, called, ?_⟩
      rw [entry, Progress.entry, Progress.index_of_advance reached]

/-- A monitor in a chain with a hook that tampers with the sum after it and one that fails
checks, on a coin that alternates. -/
theorem steps_by_hand_simulate_run_chain :
    let r : Rig ScriptedCoin :=
      { settings := .withIterations 4, coin := { script := #[true, false] } }
    let hook : Hook Script := .chain "outer" [.monitor {}, .tamper 3, .failing 2]
    let bench : Bench ScriptedCoin Ledger := { coin := r.coin, sink := {} }
    Routine.KeepsName hook ∧ Routine.Calm hook ∧
      ∃ s b, (r.run hook {} {}).ending = .completed s ∧
        bench.byHand hook r.settings.iterations.toNat = (.returned (r.run hook {} {}).hook, b) ∧
        b.sum = s.sum ∧ b.counters.failures = s.metrics.assertionFailures ∧
        b.coin = (r.run hook {} {}).rig.coin ∧
        b.diagnostics = (r.reported hook).filter (·.isAssertion) := by
  intro r hook bench
  have named : Routine.KeepsName hook := Hook.keepsName fun x eq => by simp [hook] at eq
  have parts : ∀ h ∈ ([.monitor {}, .tamper 3, .failing 2] : List (Hook Script)),
      Routine.Calm h := by
    simp only [List.mem_cons, List.not_mem_nil, or_false]
    rintro h (rfl | rfl | rfl) <;> exact Hook.calm_of_isPlain rfl
  have calm : Routine.Calm hook := Hook.calm_chain "outer" parts
  obtain ⟨completes, simulates⟩ := steps_by_hand_simulate_run r hook named {} {}
  obtain ⟨s, ending⟩ := completes calm
  obtain ⟨b, hand, sum, counters, coin, diagnostics, -⟩ := simulates s ending
  exact ⟨named, calm, s, b, ending, hand, sum, by rw [counters], coin, diagnostics⟩

end Rig

end HookRig
