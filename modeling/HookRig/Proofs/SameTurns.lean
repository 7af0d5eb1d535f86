import HookRig.Proofs.Negations

/-! # Runs that negate in the same iterations

If all that the calls of a run do to the sum is to negate it now and then, the sums around every
iteration follow from the iterations in which they do. Two such runs with the same settings go
through the same sums, whatever made them negate and whatever coins they had.
-/

namespace HookRig

namespace TraceStep

variable {turns : Finset ℕ} {steps steps' : List TraceStep}

theorem Linked.before_eq_of_negatedOn (linked : Linked steps) (linked' : Linked steps')
    (negated : NegatedOn turns steps) (negated' : NegatedOn turns steps') {i : ℕ}
    (bound : i < steps.length) (bound' : i < steps'.length) :
    steps[i].before = steps'[i].before := by
  induction i with
  | zero => rw [linked.first bound, linked'.first bound']
  | succ i ih =>
      have earlier : i < steps.length := by omega
      have earlier' : i < steps'.length := by omega
      rw [linked.next i bound, linked'.next i bound', linked.added i earlier,
        linked'.added i earlier', negated i earlier, negated' i earlier', ih earlier earlier']

theorem Linked.eq_of_negatedOn (linked : Linked steps) (linked' : Linked steps')
    (negated : NegatedOn turns steps) (negated' : NegatedOn turns steps')
    (length : steps.length = steps'.length) : steps = steps' := by
  apply List.ext_getElem length
  intro i bound bound'
  have before := linked.before_eq_of_negatedOn linked' negated negated' bound bound'
  have iteration := (linked.iteration i bound).trans (linked'.iteration i bound').symm
  have afterHook : steps[i].afterHook = steps'[i].afterHook := by
    rw [negated i bound, negated' i bound', before]
  have afterAdd : steps[i].afterAdd = steps'[i].afterAdd := by
    rw [linked.added i bound, linked'.added i bound', afterHook]
  cases one : steps[i]
  cases other : steps'[i]
  simp_all

def finalSum (steps : List TraceStep) : Int64 := (steps.getLast?.map (·.afterAdd)).getD 0

end TraceStep

/-- Runs that went through the same sums and negated equally often. What they drew, and which
checks of their hooks failed, may differ. -/
structure Summary.SameWork (s t : Summary) : Prop where
  sum : s.sum = t.sum
  trace : s.trace = t.trace
  calls : s.metrics.calls = t.metrics.calls
  negations : s.metrics.negations = t.metrics.negations
  internalFailures : s.metrics.internalFailures = t.metrics.internalFailures

namespace Rig

open TraceStep (NegatedOn finalSum)

section

variable {κ η : Type} [CoinSource κ] [Routine η] {r : Rig κ} {hook : η} {p : Progress κ Ledger η}

theorem sum_of_history (h : r.onLedger hook = .returned p) :
    p.bench.sum = finalSum (r.history hook) := by
  rcases traced_of_returned h with ⟨q, traced, trace, agree⟩
  rw [agree.sum, ← trace]
  rw [onLedger_traced] at traced
  cases count : r.settings.iterations.toNat with
  | zero =>
      rw [count] at traced
      cases traced
      rfl
  | succ n =>
      rw [count] at traced
      rw [finalSum, Progress.last_of_advance (Nat.lt_succ_self n) traced]
      rfl

end

variable {κ κ' η θ : Type} [CoinSource κ] [CoinSource κ'] [Routine η] [Routine θ]
  {r : Rig κ} {s : Rig κ'} {hook : η} {other : θ} {elapsed elapsed' : Elapsed} {out out' : Outlets}
  {turns : Finset ℕ}

theorem history_eq_of_negates (settings : s.settings = r.settings)
    (h : r.Negates hook elapsed out turns) (h' : s.Negates other elapsed' out' turns) :
    r.history hook = s.history other := by
  rcases h with ⟨negated, a, ended, -⟩
  rcases h' with ⟨negated', b, ended', -⟩
  rcases returned_of_completed ended with ⟨p, returned, -⟩
  rcases returned_of_completed ended' with ⟨q, returned', -⟩
  have length := (history_at returned).1
  have length' := (history_at returned').1
  rw [settings] at length'
  exact (r.linked_history hook).eq_of_negatedOn (s.linked_history other) negated negated'
    (length.trans length'.symm)

/-- Runs with the same settings that negate in the same iterations do the same, and find the same
when they check themselves. -/
theorem sameWork_of_negates (valid : r.settings.problem? = none)
    (settings : s.settings = r.settings) (h : r.Negates hook elapsed out turns)
    (h' : s.Negates other elapsed' out' turns) :
    ∃ p q, r.onLedger hook = .returned p ∧ s.onLedger other = .returned q ∧
      (r.summary p elapsed).SameWork (s.summary q elapsed') ∧
      p.internalCheck.toList = q.internalCheck.toList := by
  have history := history_eq_of_negates settings h h'
  rcases h with ⟨-, a, ended, -, count⟩
  rcases h' with ⟨-, b, ended', -, count'⟩
  rcases returned_of_completed ended with ⟨p, returned, rfl⟩
  rcases returned_of_completed ended' with ⟨q, returned', rfl⟩
  have check : p.internalCheck.toList = q.internalCheck.toList := by
    rw [internalCheck_of_returned valid returned,
      internalCheck_of_returned (settings ▸ valid) returned', history]
  refine ⟨p, q, returned, returned', ?_, check⟩
  constructor
  · exact (sum_of_history returned).trans (history ▸ (sum_of_history returned').symm)
  · rw [trace_of_returned returned, trace_of_returned returned', history, settings]
  · exact (Progress.metrics_calls_of_advance returned).trans
      (settings ▸ (Progress.metrics_calls_of_advance returned').symm)
  · exact UInt64.toNat_inj.mp (count.trans count'.symm)
  · exact congrArg (fun ds : List Diagnostic => UInt64.ofNat ds.length) check

end Rig

end HookRig
