import HookRig.Hook.Script
import HookRig.Proofs.Chain
import HookRig.Proofs.Extension
import HookRig.Proofs.Monitor

/-! # The monitor in a chain

In a chain the monitor shares its bench with neighbours that may do anything between
two of its calls. It objects exactly when the sum it is handed is not the one that
follows from the sum it left: what the neighbours did in between and how they did it
does not matter, and what cancels out is not noticed.
-/

namespace HookRig

/-! ## Visits -/

/-- One call of a hook in a chain: the sum it was handed, the sum it left, and what it
reported. -/
structure Visit where
  found : Int64
  left : Int64
  reported : List Diagnostic

namespace Progress

variable {κ ε : Type} [CoinSource κ] [Routine ε]

/-- The call that the next iteration makes at a place of the driven chain, after the
calls of the hooks before it. -/
def visit (name : String) (place : Nat) (p : Progress κ Ledger (Hook ε)) : Option Visit :=
  match p.hook with
  | .chain _ hooks =>
      let site : Site := ⟨name, p.index⟩
      match (Hook.callAll (hooks.take place)).run site p.bench, hooks[place]? with
      | (.returned _, b), some hook =>
          let c := (hook.call.run site b).2
          some ⟨b.sum, c.sum, c.diagnostics.drop b.diagnostics.length⟩
      | _, _ => none
  | _ => none

variable {name : String} {p : Progress κ Ledger (Hook ε)} {pre pre' post post' : List (Hook ε)}
  {m m' : ParityMonitor} {b c d : Bench κ Ledger}

theorem run_monitor {site : Site} (called : (Routine.call m).run site b = (.returned m', c)) :
    (Hook.monitor m : Hook ε).call.run site b = (.returned (.monitor m'), c) := by
  rw [Hook.call, Program.run_then, called]
  rfl

/-- One iteration of a chain, from the calls before the monitor, of it and after it. -/
private theorem step_of_parts (hook : p.hook = .chain name (pre ++ .monitor m :: post))
    (keep : Option Nat)
    (before : (Hook.callAll pre).run ⟨name, p.index⟩ p.bench = (.returned pre', b))
    (called : (Routine.call m).run ⟨name, p.index⟩ b = (.returned m', c))
    (after : (Hook.callAll post).run ⟨name, p.index⟩ c = (.returned post', d)) :
    p.step name keep =
      .returned (p.complete keep (.chain name (pre' ++ .monitor m' :: post')) d) := by
  have all : (Hook.callAll (pre ++ .monitor m :: post)).run ⟨name, p.index⟩ p.bench =
      (.returned (pre' ++ .monitor m' :: post'), d) := by
    rw [Hook.run_callAll_append, before]
    simp only
    rw [Hook.run_callAll_cons, run_monitor called]
    simp only [after, Outcome.map]
  apply step_of_call
  rw [hook, Hook.callAs_chain, all]
  rfl

private theorem visit_of_parts (hook : p.hook = .chain name (pre ++ .monitor m :: post))
    (before : (Hook.callAll pre).run ⟨name, p.index⟩ p.bench = (.returned pre', b))
    (called : (Routine.call m).run ⟨name, p.index⟩ b = (.returned m', c))
    {messages : List String} (reported : Bench.Reported ⟨name, p.index⟩ messages b c) :
    p.visit name pre.length =
      some ⟨b.sum, c.sum, Diagnostic.failures ⟨name, p.index⟩ messages⟩ := by
  unfold visit
  rw [hook]
  simp only [List.take_left', List.getElem?_append_right (Nat.le_refl _), Nat.sub_self,
    List.getElem?_cons_zero, before, run_monitor called]
  rw [reported.diagnostics, List.drop_left']
  rfl

/-- An iteration of the chain that returns: what the monitor's call was and reported, and that the
report stays. -/
theorem visit_of_step (hook : p.hook = .chain name (pre ++ .monitor m :: post)) {keep : Option Nat}
    {q : Progress κ Ledger (Hook ε)} (stepped : p.step name keep = .returned q)
    (consistent : (m.resumed p.index).Consistent) :
    ∃ v pre' m' post', q.hook = .chain name (pre' ++ .monitor m' :: post') ∧
      pre'.length = pre.length ∧ p.visit name pre.length = some v ∧
      v.reported = Diagnostic.failures ⟨name, p.index⟩ (m.objections p.index v.found) ∧
      v.reported <:+: q.bench.diagnostics ∧ m'.Consistent ∧ m'.last = some (p.index, v.left) := by
  obtain ⟨hook', bench, called, rfl⟩ := step_returned stepped
  rw [hook] at called
  obtain ⟨hooks, all, rfl⟩ := Hook.callAs_chain_returned called
  obtain ⟨pre', b, rest, before, here, rfl⟩ := Hook.returned_callAll_append all
  obtain ⟨own, c, post', ran, after, rfl⟩ := Hook.returned_callAll_cons here
  obtain ⟨m', c', turned, turn, last⟩ := m.turn_of_consistent ⟨name, p.index⟩ b consistent
  rw [run_monitor turned] at ran
  cases ran
  refine ⟨_, pre', m', post', rfl, Hook.length_callAll before,
    visit_of_parts hook before turned turn.reported, rfl, ?_, turn.consistent, last⟩
  have later := (Hook.callAll post).tracked_run (tracked_failedChecks name) p.index c
  rw [after, turn.reported.diagnostics] at later
  exact ⟨b.diagnostics, _, later.symm⟩

end Progress

/-! ## The monitor and its neighbours -/

namespace Rig

variable {κ ε : Type} [CoinSource κ] [Routine ε]

def visit (r : Rig κ) (chain : Hook ε) (place i : Nat) : Option Visit :=
  match r.loop chain ({} : Ledger) i with
  | .returned p => p.visit chain.name place
  | .panicked _ _ => none

/-- A chain that hosts the monitor, before an iteration: in all iterations but the first the
monitor's shadow is what it left in the one before. -/
structure Hosts (r : Rig κ) (chain : Hook ε) (place i : Nat)
    (p : Progress κ Ledger (Hook ε)) (pre : List (Hook ε)) (m : ParityMonitor)
    (post : List (Hook ε)) : Prop where
  reached : r.loop chain ({} : Ledger) i = .returned p
  hook : p.hook = .chain chain.name (pre ++ .monitor m :: post)
  length : pre.length = place
  shadow : ∀ j, i = j + 1 → m.Consistent ∧
    ∃ u, r.visit chain place j = some u ∧ m.last = some (.ofNat j, u.left)

variable {r : Rig κ} {chain : Hook ε} {place i : Nat}
  {p q : Progress κ Ledger (Hook ε)} {pre post : List (Hook ε)} {m : ParityMonitor}

theorem Hosts.index (h : r.Hosts chain place i p pre m post) : p.index = .ofNat i :=
  Progress.index_of_advance h.reached

theorem Hosts.consistent (h : r.Hosts chain place i p pre m post) :
    (m.resumed p.index).Consistent := by
  rw [h.index]
  cases i with
  | zero => exact m.consistent_resumed_zero
  | succ j =>
      unfold ParityMonitor.resumed
      split
      · rfl
      · exact (h.shadow j rfl).1

theorem Hosts.next (h : r.Hosts chain place i p pre m post)
    (stepped : p.step chain.name r.settings.keep = .returned q) :
    ∃ v pre' m' post', r.visit chain place i = some v ∧
      v.reported = Diagnostic.failures ⟨chain.name, .ofNat i⟩ (m.objections (.ofNat i) v.found) ∧
      v.reported <:+: q.bench.diagnostics ∧ r.Hosts chain place (i + 1) q pre' m' post' := by
  obtain ⟨v, pre', m', post', hook, length, visited, reported, stays, consistent, last⟩ :=
    Progress.visit_of_step h.hook stepped h.consistent
  have here : r.visit chain place i = some v := by
    unfold visit
    rw [h.reached, ← h.length]
    exact visited
  rw [h.index] at reported last
  refine ⟨v, pre', m', post', here, reported, stays, ?_, hook, length.trans h.length, ?_⟩
  · exact (Progress.advance_succ_of_returned h.reached).trans stepped
  · intro j same
    obtain rfl : i = j := Nat.succ.inj same
    exact ⟨consistent, v, here, last⟩

theorem hosts_at {r : Rig κ} {name : String} {pre post : List (Hook ε)} {m : ParityMonitor}
    {i : Nat} {p : Progress κ Ledger (Hook ε)}
    (reached : r.loop (.chain name (pre ++ .monitor m :: post)) ({} : Ledger) i = .returned p) :
    ∃ pre' m' post',
      r.Hosts (.chain name (pre ++ .monitor m :: post)) pre.length i p pre' m' post' := by
  induction i generalizing p with
  | zero =>
      cases reached
      refine ⟨pre, m, post, rfl, rfl, rfl, ?_⟩
      intro j same
      cases same
  | succ i ih =>
      obtain ⟨q, earlier, stepped⟩ := Progress.advance_succ_returned reached
      obtain ⟨pre', m', post', hosts⟩ := ih earlier
      obtain ⟨v, pre'', m'', post'', -, -, -, next⟩ := hosts.next stepped
      exact ⟨pre'', m'', post'', next⟩

/-- In a run that completes, the monitor is called in every iteration, and what it reports is
among the diagnostics of the run. -/
theorem visit_of_returned {r : Rig κ} {name : String} {pre post : List (Hook ε)}
    {m : ParityMonitor} {q : Progress κ Ledger (Hook ε)}
    (returned : r.onLedger (.chain name (pre ++ .monitor m :: post) : Hook ε) = .returned q)
    {i : Nat} (bound : i < r.settings.iterations.toNat) :
    let chain : Hook ε := .chain name (pre ++ .monitor m :: post)
    ∃ v p pre' m' post', r.Hosts chain pre.length i p pre' m' post' ∧
      r.visit chain pre.length i = some v ∧
      v.reported = Diagnostic.failures ⟨name, .ofNat i⟩ (m'.objections (.ofNat i) v.found) ∧
      v.reported <:+: r.reported chain := by
  intro chain
  obtain ⟨s, next, further⟩ := Progress.advance_le (Nat.succ_le_of_lt bound) returned
  obtain ⟨p, reached, stepped⟩ := Progress.advance_succ_returned next
  obtain ⟨pre', m', post', hosts⟩ := hosts_at reached
  obtain ⟨v, -, -, -, visited, reported, stays, -⟩ := hosts.next stepped
  refine ⟨v, p, pre', m', post', hosts, visited, reported, ?_⟩
  rw [reported_of_returned returned]
  exact stays.trans (further.diagnostics.trans (List.prefix_append _ _)).isInfix

end Rig

/-! ## Neighbours that add to the sum -/

namespace Hook

variable {ε κ : Type} [Routine ε] [CoinSource κ]

def tampers (deltas : List Int64) : List (Hook ε) := deltas.map .tamper

private theorem run_tampers (site : Site) (deltas : List Int64) (b : Bench κ Ledger) :
    (callAll (tampers deltas : List (Hook ε))).run site b =
      (.returned (tampers deltas), b.set (b.sum + deltas.sum)) := by
  induction deltas generalizing b with
  | nil =>
      rw [List.sum_nil, Int64.add_zero]
      exact run_callAll_nil site b
  | cons delta rest ih =>
      have first : (Hook.tamper delta : Hook ε).call.run site b =
          (.returned (.tamper delta), b.set (b.sum + delta)) := by
        rw [call]
        rfl
      rw [show tampers (delta :: rest) = .tamper delta :: tampers rest from rfl, run_callAll_cons,
        first]
      simp only [ih, Outcome.map, Bench.sum_set, List.sum_cons, ← Int64.add_assoc]
      rfl

end Hook

namespace Progress

variable {κ ε : Type}

def tampered (name : String) (early late : List Int64) (m : ParityMonitor) : Hook ε :=
  .chain name (Hook.tampers early ++ .monitor m :: Hook.tampers late)

/-- How often the monitor has objected up to iteration `k`: once in the first iteration if something
was added before it, and once in each later one if what was added since its last call does not
cancel out. -/
def objections (early late : List Int64) (k : Nat) : Nat :=
  (if early.sum = 0 then 0 else 1) + (if early.sum + late.sum = 0 then 0 else k)

/-- The loop of a monitor between hooks that add to the sum. In all iterations but the first
the monitor is handed what it expects plus what was added after its last call and
before this one. -/
structure Tampered (name : String) (early late : List Int64) (p : Progress κ Ledger (Hook ε))
    (m : ParityMonitor) : Prop where
  hook : p.hook = tampered name early late m
  before : p.calls = 0 → p.bench.sum = 0 ∧ p.bench.counters.failures = 0
  between : ∀ k, p.calls = k + 1 → m.Consistent ∧
    (∃ left, m.last = some (.ofNat k, left) ∧
      p.bench.sum = left + late.sum + (Iteration.ofNat k).addend) ∧
    p.bench.counters.failures = .ofNat (objections early late k)

variable {name : String} {early late : List Int64} {p : Progress κ Ledger (Hook ε)}
  {m : ParityMonitor}

theorem Tampered.expects (h : Tampered name early late p m) (small : p.calls < 2 ^ 63) :
    (m.resumed p.index).Consistent ∧
      p.bench.counters.failures + .ofNat (m.objections p.index (p.bench.sum + early.sum)).length =
        .ofNat (objections early late p.calls) := by
  rw [Progress.index]
  cases calls : p.calls with
  | zero =>
      obtain ⟨sum, failures⟩ := h.before calls
      refine ⟨m.consistent_resumed_zero, ?_⟩
      rw [Iteration.ofNat_zero, ParityMonitor.objections_zero, length_complaint, sum, failures,
        UInt64.zero_add]
      simp [objections]
  | succ k =>
      obtain ⟨consistent, ⟨left, last, sum⟩, failures⟩ := h.between k calls
      have later : m.resumed (.ofNat (k + 1)) = m :=
        if_neg (Iteration.ofNat_succ_ne_zero (by omega))
      have unnoticed : left + late.sum + (Iteration.ofNat k).addend + early.sum =
          left + (Iteration.ofNat k).addend ↔ early.sum + late.sum = 0 := by
        constructor <;> intro same <;> grind
      rw [later, ParityMonitor.objections_next (by omega) last, length_complaint, sum, failures,
        ← UInt64.ofNat_add]
      refine ⟨consistent, congrArg UInt64.ofNat ?_⟩
      simp only [objections, unnoticed, decide_eq_true_eq]
      split <;> split <;> omega

variable [CoinSource κ] [Routine ε]

theorem Tampered.step (h : Tampered name early late p m) (small : p.calls < 2 ^ 63)
    (keep : Option Nat) :
    ∃ q, p.step name keep = .returned q ∧ ∃ m', Tampered name early late q m' := by
  obtain ⟨consistent, failures⟩ := h.expects small
  let site : Site := ⟨name, p.index⟩
  let calls (deltas : List Int64) : Program _ := Hook.callAll (Hook.tampers deltas : List (Hook ε))
  have before : (calls early).run site p.bench = _ := Hook.run_tampers site early p.bench
  generalize handed : p.bench.set (p.bench.sum + early.sum) = b at before
  obtain ⟨m', c, called, turn, last⟩ := m.turn_of_consistent site b consistent
  have after : (calls late).run site c = _ := Hook.run_tampers site late c
  refine ⟨_, step_of_parts h.hook keep before called after, m', rfl, ?_, ?_⟩
  · intro impossible
    cases impossible
  · intro k calls
    obtain rfl : p.calls = k := Nat.succ.inj calls
    refine ⟨turn.consistent, ⟨c.sum, last, rfl⟩, ?_⟩
    have reported := turn.reported.failures
    rw [← handed] at reported
    exact reported.trans failures

end Progress

namespace Rig

variable {κ ε : Type} [CoinSource κ] [Routine ε]

variable (ε) in
theorem failures_of_tampered (r : Rig κ) (valid : r.settings.problem? = none) (name : String)
    (early late : List Int64) (m : ParityMonitor) (elapsed : Elapsed) (out : Outlets) :
    ∃ s, (r.run (Progress.tampered name early late m : Hook ε) elapsed out).ending = .completed s ∧
      s.metrics.assertionFailures.toNat =
        if r.settings.iterations.toNat = 0 then 0
        else Progress.objections early late (r.settings.iterations.toNat - 1) := by
  have small := Settings.iterations_lt valid
  let chain : Hook ε := Progress.tampered name early late m
  have start : Progress.Tampered name early late (.start chain r.coin ({} : Ledger)) m := by
    refine ⟨rfl, fun _ => ⟨rfl, rfl⟩, ?_⟩
    intro k calls
    cases calls
  obtain ⟨p, run, ⟨m', tampered⟩, calls⟩ := Progress.advance_returns
    (I := fun p => ∃ m', Progress.Tampered name early late p m')
    (fun p h room => h.choose_spec.step (Nat.lt_trans room small) r.settings.keep)
    ⟨m, start⟩ (Nat.le_of_eq (Nat.zero_add _))
  have returned : r.onLedger chain = .returned p := run
  have counted : p.calls = r.settings.iterations.toNat := calls.trans (Nat.zero_add _)
  rw [run_of_returned returned]
  refine ⟨_, rfl, ?_⟩
  change p.bench.counters.failures.toNat = _
  rw [← counted] at small ⊢
  cases count : p.calls with
  | zero =>
      rw [(tampered.before count).2]
      rfl
  | succ k =>
      rw [(tampered.between k count).2.2]
      refine UInt64.toNat_ofNat_of_lt' ?_
      have fits : k + 1 < UInt64.size := Nat.lt_trans (count ▸ small) (by decide)
      unfold Progress.objections
      split <;> split <;> omega

/-- In any chain whose run completes, the monitor reports exactly what does not follow, modulo
`2 ^ 64`, from what it left. The failures count what a neighbour adds to the sum. -/
theorem monitor_in_chain_is_exact (r : Rig κ) (valid : r.settings.problem? = none) (name : String)
    (pre post : List (Hook ε)) (m : ParityMonitor) (elapsed : Elapsed) (out : Outlets) :
    let n := r.settings.iterations.toNat
    let chain : Hook ε := .chain name (pre ++ [.monitor m] ++ post)
    let after := r.run chain elapsed out
    ((∀ h ∈ pre ++ post, Routine.Calm h) → ∃ s, after.ending = .completed s) ∧
      (∀ s, after.ending = .completed s →
        (out.Serves r.sink → out.Gained after.outlets (r.reported chain) r.sink) ∧
        ∀ i < n, ∃ v, r.visit chain pre.length i = some v ∧ v.reported <:+: r.reported chain ∧
          (i = 0 → v.reported = if v.found = 0 then []
            else [.assertion (.ofNat i) name "accumulator not zero at start of run"]) ∧
          (∀ j, i = j + 1 → ∃ u, r.visit chain pre.length j = some u ∧
            v.reported = if v.found.toInt ≡ u.left.toInt + j [ZMOD 2 ^ 64] then []
              else [.assertion (.ofNat i) name "accumulator diverged from shadow prediction"])) ∧
      (∀ delta : Int64, ∃ s,
        (r.run (.chain name [.monitor m, .tamper delta] : Hook ε) elapsed out).ending =
            .completed s ∧
          s.metrics.assertionFailures.toNat = if delta = 0 then 0 else n - 1) ∧
      (∀ delta : Int64, ∃ s,
        (r.run (.chain name [.tamper delta, .monitor m] : Hook ε) elapsed out).ending =
            .completed s ∧
          s.metrics.assertionFailures.toNat = if delta = 0 then 0 else n) := by
  intro n chain after
  have small := Settings.iterations_lt valid
  have shape : chain = .chain name (pre ++ .monitor m :: post) := by simp [chain]
  refine ⟨?_, ?_, ?_, ?_⟩
  · intro calm
    rw [List.forall_mem_append] at calm
    have all : Routine.Calm chain := by
      refine Hook.calm_chain name ?_
      rw [List.forall_mem_append, List.forall_mem_append, List.forall_mem_singleton]
      exact ⟨⟨calm.1, Hook.calm_of_isPlain rfl⟩, calm.2⟩
    obtain ⟨p, returned⟩ : ∃ p, r.onLedger chain = .returned p := Progress.advance_of_calm all n
    exact ⟨_, completed_of_returned returned elapsed out⟩
  · intro s completed
    refine ⟨fun serves => gained_run serves chain elapsed, ?_⟩
    intro i bound
    -- All iterations return, so the monitor was reached in each of them.
    obtain ⟨q, returned, -⟩ := returned_of_completed completed
    rw [shape] at returned ⊢
    obtain ⟨v, p, pre', m', post', hosts, visited, reported, stays⟩ :=
      visit_of_returned returned bound
    refine ⟨v, visited, stays, ?_, ?_⟩
    · rintro rfl
      rw [reported, Iteration.ofNat_zero, ParityMonitor.objections_zero, complaint]
      simp only [decide_eq_true_eq]
      split <;> rfl
    · rintro j rfl
      obtain ⟨-, u, previous, last⟩ := hosts.shadow j rfl
      refine ⟨u, previous, ?_⟩
      rw [reported, ParityMonitor.objections_next (by omega) last, complaint]
      simp only [decide_eq_true_eq, Iteration.eq_add_addend_iff (show j < 2 ^ 63 by omega)]
      split <;> rfl
  · intro delta
    obtain ⟨s, ending, failures⟩ :=
      failures_of_tampered ε r valid name [] [delta] m elapsed out
    refine ⟨s, ending, failures.trans ?_⟩
    by_cases unchanged : delta = 0
    · simp [Progress.objections, unchanged]
    · simp only [Progress.objections, List.sum_nil, List.sum_singleton, Int64.zero_add,
        if_neg unchanged, if_true, n]
      split <;> omega
  · intro delta
    obtain ⟨s, ending, failures⟩ :=
      failures_of_tampered ε r valid name [delta] [] m elapsed out
    refine ⟨s, ending, failures.trans ?_⟩
    by_cases unchanged : delta = 0
    · simp [Progress.objections, unchanged]
    · simp only [Progress.objections, List.sum_nil, List.sum_singleton, Int64.add_zero,
        if_neg unchanged, n]
      split <;> omega

/-- Neighbours that cancel out: one adds five before the monitor, from a chain of its own,
and one takes it away after it. The monitor is handed what it expects. -/
theorem monitor_in_chain_is_exact_cancelling :
    let r : Rig Coin := { settings := .withIterations 4, coin := .fixed true }
    let pre : List (Hook Script) := [.chain "inner" [.noop, .tamper 5]]
    let post : List (Hook Script) := [.tamper (-5)]
    let chain : Hook Script := .chain "outer" (pre ++ [.monitor {}] ++ post)
    r.settings.problem? = none ∧ .tamper (-5) ∈ pre ++ post ∧
      (∀ h ∈ pre ++ post, Routine.Calm h) ∧
      (∃ s, (r.run chain {} {}).ending = .completed s) ∧
      (∃ v, r.visit chain 1 3 = some v ∧ v.found = -4 ∧ v.reported = []) ∧
      ∃ s, (r.run (.chain "outer" [.monitor {}, .tamper 5] : Hook Script) {} {}).ending =
          .completed s ∧ s.metrics.assertionFailures.toNat = 3 := by
  intro r pre post chain
  have valid : r.settings.problem? = none := Settings.problem?_withIterations (by decide)
  have inner : ∀ h ∈ ([.noop, .tamper 5] : List (Hook Script)), Routine.Calm h := by
    rw [List.forall_mem_cons, List.forall_mem_singleton]
    exact ⟨Hook.calm_of_isPlain rfl, Hook.calm_of_isPlain rfl⟩
  have calm : ∀ h ∈ pre ++ post, Routine.Calm h := by
    rw [List.forall_mem_append, List.forall_mem_singleton, List.forall_mem_singleton]
    exact ⟨Hook.calm_chain "inner" inner, Hook.calm_of_isPlain rfl⟩
  obtain ⟨completes, exact, after, -⟩ :=
    monitor_in_chain_is_exact r valid "outer" pre post {} {} {}
  obtain ⟨s, completed⟩ := completes calm
  obtain ⟨v, visited, -, -, later⟩ := (exact s completed).2 3 (by decide)
  obtain ⟨u, previous, reported⟩ := later 2 rfl
  have left : (r.visit chain 1 2).map (·.left) = some (-6) := by decide
  have found : (r.visit chain 1 3).map (·.found) = some (-4) := by decide
  rw [show r.visit chain 1 2 = some u from previous, Option.map_some, Option.some_inj] at left
  rw [show r.visit chain 1 3 = some v from visited, Option.map_some, Option.some_inj] at found
  rw [left, found, if_pos (by decide)] at reported
  exact ⟨valid, by simp [pre, post], calm, ⟨s, completed⟩, ⟨v, visited, found, reported⟩, after 5⟩

end Rig

end HookRig
