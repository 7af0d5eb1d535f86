import HookRig.Hook.Script
import HookRig.Proofs.History
import HookRig.Proofs.Transcript

/-! # Longer runs

A run of more iterations starts as a run of fewer does. Whatever the shorter run recorded,
reported and counted is the beginning of what the longer run does, and the next entry of
the longer trace starts from the sum that the shorter run ended with.
-/

namespace HookRig

/-- What the check of a run itself says of index additions that wrapped. -/
def Diagnostic.wrapped (count : Nat) (first : Iteration) : Diagnostic :=
  .internal ("index addition wrapped " ++ Text.natural count ++
    " time(s), first at iteration " ++ Text.natural first.index.toNat)

structure Metrics.AtMost (m m' : Metrics) : Prop where
  calls : m.calls ≤ m'.calls
  negations : m.negations ≤ m'.negations
  draws : m.draws ≤ m'.draws
  assertionFailures : m.assertionFailures ≤ m'.assertionFailures
  internalFailures : m.internalFailures ≤ m'.internalFailures

namespace Progress

variable {κ η : Type}

/-- A loop that has come further than another one. -/
structure Extends (p q : Progress κ Ledger η) : Prop where
  diagnostics : p.bench.diagnostics <+: q.bench.diagnostics
  trace : p.trace <+: q.trace
  calls : p.calls ≤ q.calls
  wraps : p.wraps ≤ q.wraps
  firstWrap : ∀ i, p.firstWrap = some i → q.firstWrap = some i

theorem Extends.refl (p : Progress κ Ledger η) : p.Extends p :=
  ⟨List.prefix_rfl, List.prefix_rfl, Nat.le_refl _, Nat.le_refl _, fun _ h => h⟩

theorem Extends.trans {p q s : Progress κ Ledger η} (h : p.Extends q) (h' : q.Extends s) :
    p.Extends s where
  diagnostics := h.diagnostics.trans h'.diagnostics
  trace := h.trace.trans h'.trace
  calls := Nat.le_trans h.calls h'.calls
  wraps := Nat.le_trans h.wraps h'.wraps
  firstWrap i first := h'.firstWrap i (h.firstWrap i first)

theorem internalCheck_eq {σ : Type} (p : Progress κ σ η) :
    p.internalCheck = p.firstWrap.map (.wrapped p.wraps) := rfl

/-- What is found of wraps is found again, with the same first of them and no fewer. -/
theorem Extends.internalCheck {p q : Progress κ Ledger η} (h : p.Extends q) {d : Diagnostic}
    (found : p.internalCheck = some d) :
    ∃ first, d = .wrapped p.wraps first ∧ q.internalCheck = some (.wrapped q.wraps first) := by
  rw [internalCheck_eq, Option.map_eq_some_iff] at found
  obtain ⟨first, wrapped, rfl⟩ := found
  refine ⟨first, rfl, ?_⟩
  rw [internalCheck_eq, h.firstWrap first wrapped, Option.map_some]

variable [CoinSource κ] [Routine η] {name : String} {keep : Option Nat}

theorem extends_of_step {p q : Progress κ Ledger η} (h : p.step name keep = .returned q) :
    p.Extends q := by
  have reported := tracked_step (tracked_failedChecks name) keep p
  rw [h] at reported
  obtain ⟨hook, bench, -, rfl⟩ := step_returned h
  constructor
  · exact reported ▸ List.prefix_append _ _
  · rw [trace_complete]
    exact List.prefix_append _ _
  · exact Nat.le_succ _
  · simp only [complete]
    split <;> omega
  · intro i first
    simp only [complete, first]
    split <;> rfl

theorem extends_of_advance {n : Nat} {p q : Progress κ Ledger η}
    (h : advance name keep n p = .returned q) : p.Extends q := by
  refine advance_invariant (I := p.Extends) ?_ (.refl p) (Nat.le_refl (p.calls + n)) h
  intro q s _ reached stepped
  exact reached.trans (extends_of_step stepped)

theorem advance_le {m n : Nat} (le : m ≤ n) {p q : Progress κ Ledger η}
    (h : advance name keep n p = .returned q) :
    ∃ s, advance name keep m p = .returned s ∧ s.Extends q := by
  rw [← Nat.add_sub_cancel' le, advance_add] at h
  cases reached : advance name keep m p with
  | returned s =>
      rw [reached] at h
      exact ⟨s, rfl, extends_of_advance h⟩
  | panicked s message =>
      rw [reached] at h
      cases h

end Progress

namespace Rig

variable {κ η : Type} [CoinSource κ] [Routine η]

/-- A completed run from the same coin, up to where the shorter run ends. -/
theorem shorter_returned {r s : Rig κ} (coin : s.coin = r.coin)
    (shorter : r.settings.iterations ≤ s.settings.iterations) {hook : η} {q : Progress κ Ledger η}
    (h : s.onLedger hook = .returned q) :
    ∃ m p, s.loop hook ({} : Ledger) r.settings.iterations.toNat = .returned m ∧ m.Extends q ∧
      r.onLedger hook = .returned p ∧ m.Agree Eq s.settings.keep r.settings.keep p := by
  obtain ⟨m, reached, further⟩ := Progress.advance_le (UInt64.le_iff_toNat_le.mp shorter) h
  have related : (s.loop hook ({} : Ledger) r.settings.iterations.toNat).Related
      (Progress.Agree Eq s.settings.keep r.settings.keep) (r.onLedger hook) :=
    loop_agree (fun _ _ d same => by rw [same]) coin hook rfl _
  have reached' : s.loop hook ({} : Ledger) r.settings.iterations.toNat = .returned m := reached
  rw [reached'] at related
  obtain ⟨p, returned, agree⟩ := related.of_returned
  exact ⟨m, p, reached', further, returned, agree⟩

/-- All that is said in the shorter run is said first in the longer one. -/
theorem transcript_of_shorter {r s : Rig κ} (coin : s.coin = r.coin)
    (shorter : r.settings.iterations ≤ s.settings.iterations) (hook : η) (out out' : Outlets) :
    r.transcript hook out <+: s.transcript hook out' := by
  obtain ⟨more, count⟩ := Nat.exists_eq_add_of_le (UInt64.le_iff_toNat_le.mp shorter)
  have agree : (Progress.start hook r.coin ({} : Ledger)).Agree Eq r.settings.keep s.settings.keep
      (.start hook s.coin ({} : Ledger)) := by
    rw [coin]
    exact .start hook r.coin rfl
  rw [r.transcript_eq_onLedger hook out, s.transcript_eq_onLedger hook out', count,
    Progress.transcript_add,
    Progress.transcript_agree (fun _ _ d same => by rw [same]) (Routine.name hook) _ agree]
  exact List.prefix_append _ _

private theorem ofNat_le_ofNat {a b : Nat} (le : a ≤ b) (fits : b < UInt64.size) :
    UInt64.ofNat a ≤ UInt64.ofNat b :=
  (UInt64.ofNat_le_iff_le (Nat.lt_of_le_of_lt le fits) fits).mpr le

/-- As long as no counter of the longer run comes round to zero, none of the shorter is larger. -/
theorem atMost_of_shorter {r s : Rig κ} (coin : s.coin = r.coin)
    (shorter : r.settings.iterations ≤ s.settings.iterations) {hook : η}
    {p q : Progress κ Ledger η} (returned : r.onLedger hook = .returned p)
    (returned' : s.onLedger hook = .returned q)
    (wrapped : p.internalCheck.isSome → q.internalCheck.isSome) {out' : Outlets}
    (fits : CountsFit (s.transcript hook out')) : p.metrics.AtMost q.metrics := by
  obtain ⟨rest, said⟩ := transcript_of_shorter coin shorter hook out' out'
  obtain ⟨negations, draws, failures⟩ := metrics_of_returned returned out'
  obtain ⟨negations', draws', failures'⟩ := metrics_of_returned returned' out'
  constructor
  · rw [Progress.metrics_calls_of_advance returned, Progress.metrics_calls_of_advance returned']
    exact shorter
  · rw [negations, negations']
    refine ofNat_le_ofNat ?_ fits.negations
    rw [← said, negationCount_append]
    exact Nat.le_add_right _ _
  · rw [draws, draws']
    refine ofNat_le_ofNat ?_ fits.draws
    rw [← said, drawnSides_append, List.length_append]
    exact Nat.le_add_right _ _
  · rw [failures, failures']
    refine ofNat_le_ofNat ?_ fits.failures
    rw [← said, failedChecks_append, List.length_append]
    exact Nat.le_add_right _ _
  · refine ofNat_le_ofNat ?_ (Nat.lt_of_le_of_lt Option.length_toList_le (by decide))
    cases found : p.internalCheck with
    | none => exact Nat.zero_le _
    | some d =>
        obtain ⟨own, again⟩ := Option.isSome_iff_exists.mp (wrapped (by rw [found]; rfl))
        rw [again]
        exact Nat.le_refl 1

/-- With room for all steps, the trace of the longer run starts with that of the shorter one. If it
goes on, then from the sum that the shorter run ends with. -/
theorem trace_of_shorter {s : Rig κ} {hook : η} {m p q : Progress κ Ledger η} {n : Nat}
    {limit limit' : Nat} (room : n ≤ limit) (room' : s.settings.iterations.toNat ≤ limit')
    (shorter : n ≤ s.settings.iterations.toNat) (keep : s.settings.keep = some limit')
    (returned : s.onLedger hook = .returned q) (reached : s.loop hook ({} : Ledger) n = .returned m)
    (further : m.Extends q) (agree : m.Agree Eq (some limit') (some limit) p) :
    q.trace.length = s.settings.iterations.toNat ∧ p.trace = q.trace.take n ∧
      ∀ bound : n < q.trace.length, q.trace[n].before = p.bench.sum := by
  unfold onLedger loop at returned
  unfold loop at reached
  rw [keep] at returned reached
  obtain ⟨length, entries⟩ := Progress.trace_of_advance rfl returned
  rw [Nat.min_eq_left room'] at length
  obtain ⟨steps, counted, trace, trace'⟩ := agree.books.trace
  have calls : steps.length = n := by
    rw [counted, Progress.calls_of_advance reached]
    exact Nat.zero_add n
  -- Neither loop has run out of room by then.
  have whole : m.trace = steps := trace.trans (List.take_of_length_le (by omega))
  have whole' : p.trace = steps := trace'.trans (List.take_of_length_le (by omega))
  refine ⟨length, ?_, ?_⟩
  · rw [whole', ← whole, ← calls, ← whole]
    exact List.prefix_iff_eq_take.mp further.trace
  · intro bound
    obtain ⟨m', hook', bench, reached', -, entry⟩ := entries n bound
    rw [reached] at reached'
    cases reached'
    rw [entry]
    exact agree.sum

/-- A run of more iterations, from the same coin, extends a run of fewer: in its trace, its failed
checks, its counts and what it tells of wraps. -/
theorem longer_run_extends_shorter (r s : Rig κ) (hook : η) (coin : s.coin = r.coin)
    (shorter : r.settings.iterations ≤ s.settings.iterations)
    (recorded : r.settings.recordTrace = true ∧ s.settings.recordTrace = true)
    (room : r.settings.iterations.toNat ≤ r.settings.traceLimit ∧
      s.settings.iterations.toNat ≤ s.settings.traceLimit)
    (elapsed elapsed' : Elapsed) (out out' : Outlets) (long : Summary)
    (completed : (s.run hook elapsed' out').ending = .completed long) :
    let n := r.settings.iterations.toNat
    ∃ short, (r.run hook elapsed out).ending = .completed short ∧
      (∃ steps, long.trace = some steps ∧ steps.length = s.settings.iterations.toNat ∧
        short.trace = some (steps.take n) ∧
        ∀ bound : n < steps.length, steps[n].before = short.sum) ∧
      (out.Serves r.sink → out.Gained (r.run hook elapsed out).outlets (r.reported hook) r.sink) ∧
      (out'.Serves s.sink →
        out'.Gained (s.run hook elapsed' out').outlets (s.reported hook) s.sink) ∧
      (r.reported hook).filter (·.isAssertion) <+: (s.reported hook).filter (·.isAssertion) ∧
      (CountsFit (s.transcript hook out') → short.metrics.AtMost long.metrics) ∧
      ∀ d ∈ r.reported hook, d.isAssertion = false → ∃ count count' first,
        d = .wrapped count first ∧ count ≤ count' ∧ .wrapped count' first ∈ s.reported hook := by
  intro n
  obtain ⟨q, returned', rfl⟩ := returned_of_completed completed
  obtain ⟨m, p, reached, further, returned, agree⟩ := shorter_returned coin shorter returned'
  have ended : (r.run hook elapsed out).ending = .completed (r.summary p elapsed) := by
    rw [run_of_returned returned]
  have keep : r.settings.keep = some r.settings.traceLimit := if_pos recorded.1
  have keep' : s.settings.keep = some s.settings.traceLimit := if_pos recorded.2
  -- `m` is the loop of the longer run where the shorter one ends, and `p` that of the shorter one.
  have same : p.bench.diagnostics = m.bench.diagnostics :=
    congrArg Ledger.diagnostics agree.bench.sink.symm
  refine ⟨_, ended, ?_, ?_, ?_, ?_, ?_, ?_⟩
  · rw [keep, keep'] at agree
    obtain ⟨length, trace, next⟩ :=
      trace_of_shorter room.1 room.2 (UInt64.le_iff_toNat_le.mp shorter) keep' returned' reached
        further agree
    refine ⟨q.trace, ?_, length, ?_, next⟩
    · rw [summary, keep']
      rfl
    · rw [summary, keep, Option.map_some, trace]
  · intro serves
    exact gained_run serves hook elapsed
  · intro serves
    exact gained_run serves hook elapsed'
  · rw [assertions_of_reported returned, assertions_of_reported returned', same]
    exact further.diagnostics
  · refine atMost_of_shorter coin shorter returned returned' ?_
    rw [← agree.books.internalCheck, Option.isSome_iff_exists, Option.isSome_iff_exists]
    rintro ⟨d, found⟩
    obtain ⟨first, -, again⟩ := further.internalCheck found
    exact ⟨_, again⟩
  · intro d member internal
    rw [reported_of_returned returned, List.mem_append, Option.mem_toList,
      ← agree.books.internalCheck] at member
    rcases member with check | found
    · have assertion := assertions_of_returned returned d check
      rw [internal] at assertion
      cases assertion
    · obtain ⟨first, rfl, again⟩ := further.internalCheck found
      refine ⟨m.wraps, q.wraps, first, rfl, further.wraps, ?_⟩
      rw [reported_of_returned returned', List.mem_append, Option.mem_toList]
      exact .inr again

/-- Three and five iterations of a script whose second iteration leads to a wrap, and whose fourth
to another. -/
theorem longer_run_extends_shorter_wrapping :
    let three : Settings := { iterations := 3, recordTrace := true, traceLimit := 3 }
    let five : Settings := { iterations := 5, recordTrace := true, traceLimit := 9 }
    let r : Rig ScriptedCoin := { settings := three, coin := { script := #[true, false] } }
    let s : Rig ScriptedCoin := { settings := five, coin := { script := #[true, false] } }
    let saturate : Script :=
      ⟨"saturate", [⟨.among [1, 3], [.store Int64.maxValue, .draw, .check false "full"]⟩]⟩
    ∃ short long, (s.run saturate {} {}).ending = .completed long ∧
      (r.run saturate {} {}).ending = .completed short ∧
      CountsFit (s.transcript saturate {}) ∧ short.metrics.AtMost long.metrics ∧
      Diagnostic.wrapped 1 (.ofNat 1) ∈ r.reported saturate ∧
      ∃ count count' first, Diagnostic.wrapped 1 (.ofNat 1) = .wrapped count first ∧
        count ≤ count' ∧ .wrapped count' first ∈ s.reported saturate := by
  intro three five r s saturate
  have completes : (s.run saturate {} {}).ending.summary?.isSome = true := by decide +kernel
  obtain ⟨long, ended⟩ := Ending.exists_completed completes
  obtain ⟨short, ended', -, -, -, -, metrics, wraps⟩ :=
    longer_run_extends_shorter r s saturate rfl (by decide) ⟨rfl, rfl⟩ ⟨by decide, by decide⟩
      {} {} {} {} long ended
  have told : Diagnostic.wrapped 1 (.ofNat 1) ∈ r.reported saturate := by decide +kernel
  have fits : CountsFit (s.transcript saturate {}) :=
    ⟨by decide +kernel, by decide +kernel, by decide +kernel⟩
  exact ⟨short, long, ended, ended', fits, metrics fits, told, wraps _ told rfl⟩

end Rig

end HookRig
