import HookRig.Hook.Script
import HookRig.Proofs.Monitor
import HookRig.Proofs.Wrapping
import Mathlib.Algebra.BigOperators.Group.Finset.Basic
import Mathlib.Algebra.BigOperators.Ring.Finset
import Mathlib.Tactic.Ring

/-! # Runs that only negate

A call that negates the sum turns the sign of every index added so far. A run whose calls do
nothing else to the sum therefore ends, modulo `2 ^ 64`, with the sum of its indices, each
with the sign that the later negations give it. It does not matter what decides when
to negate.
-/

namespace HookRig

open Finset

/-! ## The signed sum -/

/-- The sum of the indices below `n`. Each has its sign turned by the members of the set that
come after it. -/
def signedSum (turns : Finset ℕ) (n : ℕ) : ℤ :=
  ∑ i ∈ range n, (-1) ^ (turns.filter fun j => i < j ∧ j < n).card * (i : ℤ)

/-- A further index turns the sign of all earlier ones if it is in the set. -/
theorem signedSum_succ (turns : Finset ℕ) (n : ℕ) :
    signedSum turns (n + 1) = (if n ∈ turns then -1 else 1) * signedSum turns n + n := by
  have last : (turns.filter fun j => n < j ∧ j < n + 1) = ∅ := by
    rw [filter_eq_empty_iff]
    omega
  have earlier : ∀ i ∈ range n,
      (-1 : ℤ) ^ (turns.filter fun j => i < j ∧ j < n + 1).card * (i : ℤ) =
        (if n ∈ turns then -1 else 1) *
          ((-1) ^ (turns.filter fun j => i < j ∧ j < n).card * (i : ℤ)) := by
    intro i member
    have below : i < n := mem_range.mp member
    -- If `n` is in the set, it is the one member that is new after each earlier index.
    by_cases turned : n ∈ turns
    · have split : (turns.filter fun j => i < j ∧ j < n + 1) =
          insert n (turns.filter fun j => i < j ∧ j < n) := by
        ext j
        simp only [mem_filter, mem_insert]
        constructor
        · rintro ⟨here, after, before⟩
          by_cases same : j = n
          · exact .inl same
          · exact .inr ⟨here, after, by omega⟩
        · rintro (rfl | ⟨here, after, before⟩)
          · exact ⟨turned, below, by omega⟩
          · exact ⟨here, after, by omega⟩
      rw [split, card_insert_of_notMem (by simp), if_pos turned, pow_succ]
      ring
    · have same : (turns.filter fun j => i < j ∧ j < n + 1) =
          turns.filter fun j => i < j ∧ j < n := by
        refine filter_congr fun j here => ?_
        have other : j ≠ n := fun eq => turned (eq ▸ here)
        omega
      rw [same, if_neg turned, one_mul]
  rw [signedSum, sum_range_succ, last, sum_congr rfl earlier, ← mul_sum, card_empty, pow_zero,
    one_mul]
  rfl

namespace TraceStep

def NegatedOn (turns : Finset ℕ) (steps : List TraceStep) : Prop :=
  ∀ i (bound : i < steps.length),
    steps[i].afterHook = if i ∈ turns then -steps[i].before else steps[i].before

private theorem negatedOn_concat {turns : Finset ℕ} {steps : List TraceStep} {s : TraceStep}
    (h : NegatedOn turns (steps ++ [s])) :
    NegatedOn turns steps ∧
      s.afterHook = if steps.length ∈ turns then -s.before else s.before := by
  constructor
  · intro i bound
    have here := h i (by simp; omega)
    simpa [List.getElem_append_left bound] using here
  · have last := h steps.length (by simp)
    simpa using last

theorem signedSum_turned {turns : Finset ℕ} {n : ℕ} {s : TraceStep}
    (before : s.before.toInt ≡ signedSum turns n [ZMOD 2 ^ 64])
    (turned : s.afterHook = if n ∈ turns then -s.before else s.before) :
    s.afterHook.toInt ≡ (if n ∈ turns then -1 else 1) * signedSum turns n [ZMOD 2 ^ 64] := by
  rw [turned]
  by_cases member : n ∈ turns
  · rw [if_pos member, if_pos member, neg_one_mul]
    exact (toInt_neg_modEq _).trans before.neg
  · rw [if_neg member, if_neg member, one_mul]
    exact before

theorem signedSum_step {turns : Finset ℕ} {n : ℕ} {s : TraceStep}
    (before : s.before.toInt ≡ signedSum turns n [ZMOD 2 ^ 64])
    (turned : s.afterHook = if n ∈ turns then -s.before else s.before)
    (added : s.afterAdd.toInt ≡ s.afterHook.toInt + n [ZMOD 2 ^ 64]) :
    s.afterAdd.toInt ≡ signedSum turns (n + 1) [ZMOD 2 ^ 64] := by
  rw [signedSum_succ]
  exact added.trans ((signedSum_turned before turned).add_right _)

end TraceStep

open TraceStep (NegatedOn)

namespace Progress

variable {κ σ η : Type}

private theorem signedSum_entry {turns : Finset ℕ} {p q : Progress κ σ η} {s : TraceStep}
    (books : p.Books) (e : p.Entry q s)
    (sum : NegatedOn turns p.trace → p.bench.sum.toInt ≡ signedSum turns p.calls [ZMOD 2 ^ 64])
    (negated : NegatedOn turns q.trace) :
    q.bench.sum.toInt ≡ signedSum turns q.calls [ZMOD 2 ^ 64] := by
  rw [e.trace] at negated
  obtain ⟨earlier, last⟩ := TraceStep.negatedOn_concat negated
  rw [books.length] at last
  have before : s.before.toInt ≡ signedSum turns p.calls [ZMOD 2 ^ 64] := by
    rw [e.before]
    exact sum earlier
  have added : s.afterAdd.toInt ≡ s.afterHook.toInt + p.calls [ZMOD 2 ^ 64] := by
    rw [e.addition, e.index]
    exact Int.modEq_iff_dvd.mpr ⟨if s.exceeds then 1 else 0, by ring⟩
  rw [← e.afterAdd, e.calls]
  exact TraceStep.signedSum_step before last added

end Progress

/-! ## Hooks that turn the sum -/

structure Bench.Turned {κ σ : Type} (b c : Bench κ σ) (turn : Bool) : Prop where
  sum : c.sum = if turn then -b.sum else b.sum
  negations : c.counters.negations = b.counters.negations + turn.toUInt64

def turnsOf (sides : ℕ → Bool) (n : ℕ) : Finset ℕ := (range n).filter fun i => sides i

theorem mem_turnsOf {sides : ℕ → Bool} {n i : ℕ} (h : i < n) : i ∈ turnsOf sides n ↔ sides i := by
  simp [turnsOf, h]

private theorem card_turnsOf_succ (sides : ℕ → Bool) (n : ℕ) :
    (turnsOf sides (n + 1)).card = (turnsOf sides n).card + (sides n).toNat := by
  unfold turnsOf
  rw [range_add_one, filter_insert]
  cases side : sides n with
  | true => simp
  | false => simp

namespace Rig

variable {κ η : Type} [CoinSource κ] [Routine η]

theorem sum_of_negatedOn {r : Rig κ} (valid : r.settings.problem? = none) {hook : η}
    {p : Progress κ Ledger η} (h : r.onLedger hook = .returned p) {turns : Finset ℕ}
    (negated : NegatedOn turns (r.history hook)) :
    p.bench.sum.toInt ≡ signedSum turns r.settings.iterations.toNat [ZMOD 2 ^ 64] := by
  have small := Nat.le_of_lt (Settings.iterations_lt valid)
  obtain ⟨q, traced, trace, agree⟩ := traced_of_returned h
  rw [onLedger_traced] at traced
  have invariant : q.Books ∧ (NegatedOn turns q.trace →
      q.bench.sum.toInt ≡ signedSum turns q.calls [ZMOD 2 ^ 64]) := by
    refine Progress.advance_invariant (I := fun q => q.Books ∧ (NegatedOn turns q.trace →
      q.bench.sum.toInt ≡ signedSum turns q.calls [ZMOD 2 ^ 64])) ?_ ⟨.start hook r.coin {}, ?_⟩
      (Nat.le_of_eq (Nat.zero_add _)) traced
    · rintro p q room ⟨books, sum⟩ stepped
      obtain ⟨hook', bench, -, rfl⟩ := Progress.step_returned stepped
      have entry := p.entry_complete (books.length.symm ▸ room) (Nat.lt_of_lt_of_le room small)
        hook' bench
      exact ⟨books.entry entry, Progress.signedSum_entry books entry sum⟩
    · intro _
      rfl
  have sum := invariant.2 (trace ▸ negated)
  rw [← agree.sum, ← agree.books.calls, calls_of_returned h] at sum
  exact sum

/-- A hook whose calls turn the sum as a sequence says: its run completes, and negates in the
iterations at which the sequence shows one. -/
theorem negatedOn_of_turned {r : Rig κ} {hook : η} {sides : ℕ → Bool}
    {I : Progress κ Ledger η → Prop} (start : I (.start hook r.coin {}))
    (calls : ∀ p, I p → p.calls < r.settings.iterations.toNat → ∃ hook' bench,
      p.bench.callAs (Routine.name hook) p.hook p.index = (.returned hook', bench) ∧
        p.bench.Turned bench (sides p.calls) ∧ ∀ keep, I (p.complete keep hook' bench)) :
    ∃ p, r.onLedger hook = .returned p ∧
      NegatedOn (turnsOf sides r.settings.iterations.toNat) (r.history hook) ∧
      p.metrics.negations.toNat = (turnsOf sides r.settings.iterations.toNat).card := by
  -- Along the loop the count is known as a remainder. It is exact in the end, since it is at most
  -- the number of iterations.
  have proceeds : ∀ p, I p ∧ p.bench.counters.negations = .ofNat (turnsOf sides p.calls).card →
      p.calls < r.settings.iterations.toNat →
      ∃ q, p.step (Routine.name hook) r.settings.keep = .returned q ∧
        I q ∧ q.bench.counters.negations = .ofNat (turnsOf sides q.calls).card := by
    rintro p ⟨inv, count⟩ room
    obtain ⟨hook', bench, call, turned, next⟩ := calls p inv room
    refine ⟨_, Progress.step_of_call call, next _, ?_⟩
    rw [Progress.calls_complete, card_turnsOf_succ, UInt64.ofNat_add, ← count]
    refine turned.negations.trans (congrArg _ ?_)
    cases sides p.calls <;> rfl
  obtain ⟨p, returned, ⟨-, count⟩, -⟩ := onLedger_returns ⟨start, rfl⟩ proceeds
  have fits : (turnsOf sides p.calls).card < UInt64.size := by
    rw [calls_of_returned returned]
    refine Nat.lt_of_le_of_lt ?_ r.settings.iterations.toNat_lt
    exact (card_filter_le _ _).trans (card_range _).le
  have exactly : p.metrics.negations.toNat = (turnsOf sides p.calls).card :=
    (congrArg UInt64.toNat count).trans (UInt64.toNat_ofNat_of_lt' fits)
  rw [calls_of_returned returned] at exactly
  refine ⟨p, returned, ?_, exactly⟩
  intro i bound
  have room : i < r.settings.iterations.toNat := (history_at returned).1 ▸ bound
  have keeps : ∀ p q, p.calls < r.settings.iterations.toNat → I p →
      p.step (Routine.name hook) r.traced.settings.keep = .returned q → I q := by
    intro p q room inv stepped
    obtain ⟨hook', bench, call, -, next⟩ := calls p inv room
    rw [Progress.step_of_call call] at stepped
    cases stepped
    exact next _
  obtain ⟨q, hook', bench, inv, rfl, call, entry⟩ := history_invariant keeps start returned bound
  obtain ⟨hook'', bench', call', turned, -⟩ := calls q inv room
  have same : bench' = bench := congrArg Prod.snd (call'.symm.trans call)
  rw [entry, ← same]
  simp only [mem_turnsOf room]
  exact turned.sum

/-- A run that completes after negating the sum in the iterations of a set, once in each, and
ends with the signed sum. -/
def Negates (r : Rig κ) (hook : η) (elapsed : Elapsed) (out : Outlets) (turns : Finset ℕ) : Prop :=
  NegatedOn turns (r.history hook) ∧
    ∃ s, (r.run hook elapsed out).ending = .completed s ∧
      s.sum.toInt ≡ signedSum turns r.settings.iterations.toNat [ZMOD 2 ^ 64] ∧
      s.metrics.negations.toNat = turns.card

theorem negates_of_turned {r : Rig κ} (valid : r.settings.problem? = none) {hook : η}
    {sides : ℕ → Bool} {I : Progress κ Ledger η → Prop} (start : I (.start hook r.coin {}))
    (calls : ∀ p, I p → p.calls < r.settings.iterations.toNat → ∃ hook' bench,
      p.bench.callAs (Routine.name hook) p.hook p.index = (.returned hook', bench) ∧
        p.bench.Turned bench (sides p.calls) ∧ ∀ keep, I (p.complete keep hook' bench))
    (elapsed : Elapsed) (out : Outlets) :
    r.Negates hook elapsed out (turnsOf sides r.settings.iterations.toNat) := by
  obtain ⟨p, returned, negated, count⟩ := negatedOn_of_turned start calls
  have sum := sum_of_negatedOn valid returned negated
  exact ⟨negated, _, completed_of_returned returned elapsed out, sum, count⟩

end Rig

/-! ## Schedules, coins and the monitor -/

namespace Bench

variable {κ σ : Type}

theorem turned_of_choice (b : Bench κ σ) (turn : Bool) :
    b.Turned (if turn then b.negate.countNegation else b) turn := by
  cases turn with
  | true => exact ⟨rfl, rfl⟩
  | false => exact ⟨rfl, (UInt64.add_zero _).symm⟩

end Bench

namespace Hook

variable {ε κ σ : Type} [Routine ε] [CoinSource κ] [Receiver σ]

theorem run_scheduled (site : Site) (schedule : Schedule) (b : Bench κ σ) :
    (Hook.scheduled schedule : Hook ε).call.run site b =
      (.returned (.scheduled schedule),
        if schedule.includes site.iteration then b.negate.countNegation else b) := by
  rw [call, Program.run_then, Program.run_iteration]
  cases schedule.includes site.iteration <;> rfl

theorem run_nondetAntiOp (site : Site) (b : Bench κ σ) :
    (Hook.nondetAntiOp : Hook ε).call.run site b =
      (.returned .nondetAntiOp,
        if b.flip.1 then b.flip.2.negate.countNegation else b.flip.2) := by
  rw [call, Program.run_then, Program.run_draw]
  cases b.flip.1 <;> rfl

end Hook

namespace Progress

variable {ε κ σ : Type} [CoinSource κ]

structure Tosses (first : κ) (p : Progress κ σ (Hook ε)) : Prop where
  hook : p.hook = .nondetAntiOp
  coin : p.bench.coin = (flips p.calls first).2
  draws : p.bench.counters.draws = .ofNat p.calls

theorem Tosses.start (coin : κ) (sink : σ) :
    (Progress.start (Hook.nondetAntiOp : Hook ε) coin sink).Tosses coin := ⟨rfl, rfl, rfl⟩

theorem Tosses.call [Routine ε] [Receiver σ] {first : κ} {p : Progress κ σ (Hook ε)}
    (h : p.Tosses first) (name : String) :
    ∃ c, p.bench.callAs name p.hook p.index = (.returned .nondetAntiOp, c) ∧
      p.bench.Turned c (CoinSource.flip (flips p.calls first).2).1 ∧
      ∀ keep, (p.complete keep .nondetAntiOp c).Tosses first := by
  have flipped : (flips (p.calls + 1) first).2 = p.bench.flip.2.coin := by
    rw [flips_succ, ← h.coin]
    rfl
  have draws : p.bench.flip.2.counters.draws = .ofNat (p.calls + 1) := by
    rw [UInt64.ofNat_add, ← h.draws]
    rfl
  have turned := p.bench.flip.2.turned_of_choice p.bench.flip.1
  refine ⟨if p.bench.flip.1 then p.bench.flip.2.negate.countNegation else p.bench.flip.2,
    ?_, ?_, ?_⟩
  · rw [h.hook]
    exact Hook.run_nondetAntiOp ⟨name, p.index⟩ p.bench
  · rw [← h.coin]
    exact ⟨turned.sum, turned.negations⟩
  · intro keep
    constructor
    · rfl
    · rw [calls_complete, flipped, bench_complete]
      cases p.bench.flip.1 <;> rfl
    · rw [calls_complete, ← draws, bench_complete]
      cases p.bench.flip.1 <;> rfl

end Progress

namespace Rig

variable {κ ε : Type} [CoinSource κ] [Routine ε]

theorem tosses_of_run (r : Rig κ) :
    ∃ p, r.onLedger (Hook.nondetAntiOp : Hook ε) = .returned p ∧ p.Tosses r.coin ∧
      p.calls = r.settings.iterations.toNat := by
  refine onLedger_returns (Progress.Tosses.start r.coin ({} : Ledger)) ?_
  intro p tosses _
  rcases tosses.call "nondet-anti-op" with ⟨c, called, -, next⟩
  exact ⟨_, Progress.step_of_call called, next r.settings.keep⟩

theorem coin_run_nondetAntiOp (r : Rig κ) (elapsed : Elapsed) (out : Outlets) :
    (r.run (Hook.nondetAntiOp : Hook ε) elapsed out).rig.coin =
      (flips r.settings.iterations.toNat r.coin).2 := by
  rcases tosses_of_run (ε := ε) r with ⟨p, returned, tosses, calls⟩
  rw [run_of_returned returned, ← calls]
  exact tosses.coin

theorem negates_scheduled {r : Rig κ} (valid : r.settings.problem? = none) (schedule : Schedule)
    (elapsed : Elapsed) (out : Outlets) :
    r.Negates (Hook.scheduled schedule : Hook ε) elapsed out
      (turnsOf (fun i => schedule.includes (.ofNat i)) r.settings.iterations.toNat) := by
  refine negates_of_turned valid (I := fun p => p.hook = .scheduled schedule) rfl ?_ elapsed out
  intro p hook room
  refine ⟨.scheduled schedule, _, ?_, p.bench.turned_of_choice _, fun keep => rfl⟩
  rw [hook]
  exact Hook.run_scheduled _ schedule p.bench

/-- The iterations of a run at which its coin shows one, for a hook that draws once per call. -/
def drawnOnes (r : Rig κ) : Finset ℕ :=
  (range r.settings.iterations.toNat).filter fun i =>
    (flips r.settings.iterations.toNat r.coin).1[i]? = some true

theorem turnsOf_flips (r : Rig κ) :
    turnsOf (fun i => (CoinSource.flip (flips i r.coin).2).1) r.settings.iterations.toNat =
      r.drawnOnes := by
  refine filter_congr fun i member => ?_
  rw [getElem?_flips (mem_range.mp member), Option.some_inj]

theorem negates_nondetAntiOp {r : Rig κ} (valid : r.settings.problem? = none)
    (elapsed : Elapsed) (out : Outlets) :
    r.Negates (Hook.nondetAntiOp : Hook ε) elapsed out r.drawnOnes := by
  rw [← turnsOf_flips]
  refine negates_of_turned valid (Progress.Tosses.start r.coin ({} : Ledger)) ?_ elapsed out
  intro p tosses _
  rcases tosses.call (Routine.name (Hook.nondetAntiOp : Hook ε)) with ⟨c, called, turned, next⟩
  exact ⟨.nondetAntiOp, c, called, turned, next⟩

theorem negates_monitor {r : Rig κ} (valid : r.settings.problem? = none) (m : ParityMonitor)
    (elapsed : Elapsed) (out : Outlets) : r.Negates m elapsed out r.drawnOnes := by
  have small := Settings.iterations_lt valid
  rw [← turnsOf_flips]
  refine negates_of_turned valid (ParityMonitor.Watches.start m r.coin) ?_ elapsed out
  intro p watches room
  obtain ⟨m', c, call, turn, next⟩ := watches.call (by omega) (Routine.name m)
  refine ⟨m', c, call, ⟨?_, ?_⟩, next⟩
  · rw [← watches.coin]
    exact turn.sum
  · rw [← watches.coin]
    exact turn.negations

/-- A run whose calls negate the sum in the iterations of a set and leave it alone in all others
ends, modulo `2 ^ 64`, with the sum of its indices, each with its sign turned by every member of the
set after it. -/
theorem sum_is_signed_sum (r : Rig κ) (valid : r.settings.problem? = none) (elapsed : Elapsed)
    (out : Outlets) :
    (∀ (η : Type) [Routine η] (hook : η) (turns : Finset ℕ) (s : Summary),
        (r.run hook elapsed out).ending = .completed s →
        NegatedOn turns (r.history hook) →
        s.sum.toInt ≡ signedSum turns r.settings.iterations.toNat [ZMOD 2 ^ 64]) ∧
      (∀ indices : List UInt64, r.Negates (Hook.scheduled (.among indices) : Hook ε) elapsed out
        ((indices.map UInt64.toNat).toFinset.filter (· < r.settings.iterations.toNat))) ∧
      r.Negates (Hook.nondetAntiOp : Hook ε) elapsed out r.drawnOnes ∧
      ∀ m : ParityMonitor, r.Negates m elapsed out r.drawnOnes := by
  refine ⟨?_, ?_, negates_nondetAntiOp valid elapsed out,
    fun m => negates_monitor valid m elapsed out⟩
  · intro η _ hook turns s completed negated
    obtain ⟨p, returned, rfl⟩ := returned_of_completed completed
    exact sum_of_negatedOn valid returned negated
  · intro indices
    have small := r.settings.iterations.toNat_lt
    have scheduled : turnsOf (fun i => (Schedule.among indices).includes (.ofNat i))
        r.settings.iterations.toNat =
        (indices.map UInt64.toNat).toFinset.filter (· < r.settings.iterations.toNat) := by
      ext i
      simp only [turnsOf, mem_filter, mem_range, List.mem_toFinset, List.mem_map,
        Schedule.includes, Iteration.ofNat, List.contains_iff_mem]
      constructor
      · rintro ⟨room, member⟩
        exact ⟨⟨_, member, UInt64.toNat_ofNat_of_lt' (Nat.lt_trans room small)⟩, room⟩
      · rintro ⟨⟨index, member, rfl⟩, room⟩
        exact ⟨room, by simpa using member⟩
    rw [← scheduled]
    exact negates_scheduled valid (.among indices) elapsed out

/-- A script that negates without being counted, and a schedule that lists an iteration twice
and one past the end of the run. -/
theorem sum_is_signed_sum_uncounted :
    let r : Rig Coin := { settings := .withIterations 6, coin := .fixed true }
    let script : Script := ⟨"flip", [⟨.among [2, 4], [.negate]⟩]⟩
    let hook : Hook Script := .scheduled (.among [1, 9, 1])
    r.settings.problem? = none ∧ NegatedOn {2, 4} (r.history script) ∧
      (∃ s, (r.run script {} {}).ending = .completed s ∧ s.sum.toInt ≡ 5 [ZMOD 2 ^ 64]) ∧
      ∃ s, (r.run hook {} {}).ending = .completed s ∧ s.metrics.negations.toNat = 1 := by
  intro r script hook
  have valid : r.settings.problem? = none := Settings.problem?_withIterations (by decide)
  have negated : NegatedOn {2, 4} (r.history script) := by
    unfold TraceStep.NegatedOn
    decide
  have completes : (r.run script {} {}).ending.summary?.isSome = true := by decide
  have signed : signedSum {2, 4} 6 = 5 := by decide
  obtain ⟨general, scheduled, -⟩ := sum_is_signed_sum (ε := Script) r valid {} {}
  obtain ⟨-, s, ending, -, count⟩ := scheduled [1, 9, 1]
  refine ⟨valid, negated, ?_, s, ending, count⟩
  cases ended : (r.run script {} {}).ending with
  | panicked message => simp [ended, Ending.summary?] at completes
  | completed t =>
      have sum := general Script script {2, 4} t ended negated
      exact ⟨t, rfl, signed ▸ sum⟩

end Rig

end HookRig
