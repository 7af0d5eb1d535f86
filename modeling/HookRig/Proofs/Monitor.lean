import HookRig.Hook.ParityMonitor
import HookRig.Proofs.Indices
import HookRig.Proofs.Observation
import HookRig.Proofs.Reports
import HookRig.Proofs.Sinks

/-! # The monitor under the driver

A call of the monitor is told by its objections: the messages of the checks that
fail, from the index and the sum it finds and from its shadow. The rest of the call
is one draw and, if the coin shows one, one negation. Driven on its own, the monitor
has no objections, whatever state it is in when the run starts.
-/

namespace HookRig

namespace Parity

theorem ofCount_eq (n : UInt64) : ofCount n = if n.toNat % 2 = 0 then .even else .odd := by
  have even : n % 2 = 0 ↔ n.toNat % 2 = 0 := UInt64.toNat_inj.symm
  simp only [ofCount, even]

theorem ofCount_eq_odd (n : UInt64) : ofCount n = .odd ↔ n.toNat % 2 = 1 := by
  rw [ofCount_eq]
  split <;> simp <;> omega

/-- A count that comes round to zero was odd before. -/
theorem toggle_ofCount (n : UInt64) : (ofCount n).toggle = ofCount (n + 1) := by
  have next : (n + 1).toNat % 2 = (n.toNat + 1) % 2 := by
    rw [UInt64.toNat_add, UInt64.toNat_one]
    omega
  rw [ofCount_eq, ofCount_eq, next]
  rcases Nat.mod_two_eq_zero_or_one n.toNat with h | h <;> simp [h, Nat.add_mod, toggle]

end Parity

namespace ParityMonitor

/-- The state in which a call goes on: at index zero the past is forgotten. -/
def resumed (m : ParityMonitor) (i : Iteration) : ParityMonitor := if i = .zero then {} else m

def objections (m : ParityMonitor) (i : Iteration) (found : Int64) : List String :=
  if i = .zero then complaint (found = 0) "accumulator not zero at start of run"
  else match m.last with
    | none => []
    | some (previous, left) =>
        complaint (i = previous.next) "iteration does not follow the previous call" ++
        complaint (found = left + previous.addend) "accumulator diverged from shadow prediction"

def Consistent (m : ParityMonitor) : Prop := m.parity = Parity.ofCount m.negations

theorem consistent_negated {m : ParityMonitor} (h : m.Consistent) : m.negated.Consistent := by
  unfold Consistent negated at *
  rw [h, Parity.toggle_ofCount]

variable {κ : Type} [CoinSource κ]

private theorem run_observe (m : ParityMonitor) (i : Iteration) (found : Int64) (site : Site)
    (b : Bench κ Ledger) :
    ((m.observe i found).run site b).1 = m.resumed i ∧
      Bench.Reported site (m.objections i found) b ((m.observe i found).run site b).2 ∧
      ((m.observe i found).run site b).2.Alike b := by
  have same : b.Alike b := ⟨rfl, rfl, rfl, rfl⟩
  unfold observe resumed objections
  by_cases zero : i = .zero
  · rw [if_pos zero, if_pos zero, if_pos zero]
    simp only [Program.run_then, Program.run_check, Program.run_pure]
    exact ⟨trivial, b.reported_check site _ _, same.passive site rfl⟩
  · rw [if_neg zero, if_neg zero, if_neg zero]
    cases m.last with
    | none => exact ⟨rfl, .nothing site rfl rfl, same⟩
    | some last =>
        obtain ⟨previous, left⟩ := last
        simp only [Program.run_then, Program.run_check, Program.run_pure]
        refine ⟨trivial, ?_, (same.passive site rfl).passive site rfl⟩
        exact (b.reported_check site _ _).trans (Bench.reported_check site _ _ _)

private theorem run_react (m : ParityMonitor) (site : Site) (b : Bench κ Ledger) :
    m.react.run site b =
      if (CoinSource.flip b.coin).1 then (m.negated, b.flip.2.negate.countNegation)
      else (m, b.flip.2) := by
  have side : (Program.draw.run site b).1 = (CoinSource.flip b.coin).1 := rfl
  rw [react, Program.run_then, side]
  cases (CoinSource.flip b.coin).1 <;> rfl

theorem run_call (m : ParityMonitor) (site : Site) (b : Bench κ Ledger)
    {m' : ParityMonitor} {c : Bench κ Ledger}
    (reacted : ((m.observe site.iteration b.sum).run site b).1.react.run site
      ((m.observe site.iteration b.sum).run site b).2 = (m', c))
    (consistent : m'.Consistent) :
    (Routine.call m).run site b =
      (.returned { m' with last := some (site.iteration, c.sum) }, c) := by
  change m.call.run site b = _
  unfold call
  simp only [Program.run_then, Program.run_iteration, Program.run_sum, reacted, Program.run_check]
  -- The last check holds, so it leaves the bench as it is.
  rw [show decide (m'.parity = Parity.ofCount m'.negations) = true from decide_eq_true consistent]
  rfl

/-- What is reported, and then one draw: what a call does to the bench, and to the state
in which it goes on. -/
structure Turn (site : Site) (messages : List String) (m : ParityMonitor) (b : Bench κ Ledger)
    (m' : ParityMonitor) (c : Bench κ Ledger) : Prop where
  reported : Bench.Reported site messages b c
  coin : c.coin = (CoinSource.flip b.coin).2
  sum : c.sum = if (CoinSource.flip b.coin).1 then -b.sum else b.sum
  draws : c.counters.draws = b.counters.draws + 1
  negations : c.counters.negations = b.counters.negations + (CoinSource.flip b.coin).1.toUInt64
  counted : m'.negations = m.negations + (CoinSource.flip b.coin).1.toUInt64
  consistent : m'.Consistent

private theorem turn_react {m : ParityMonitor} (consistent : m.Consistent) (site : Site)
    (b : Bench κ Ledger) :
    ∃ m' c, m.react.run site b = (m', c) ∧ Turn site [] m b m' c := by
  rw [run_react]
  cases side : (CoinSource.flip b.coin).1 with
  | false =>
      refine ⟨m, b.flip.2, rfl, .nothing site rfl rfl, rfl, ?_, rfl, ?_, ?_, consistent⟩
      · rw [side]
        rfl
      all_goals rw [side]; exact (UInt64.add_zero _).symm
  | true =>
      refine ⟨m.negated, b.flip.2.negate.countNegation, rfl, .nothing site rfl rfl, rfl, ?_, rfl,
        ?_, ?_, consistent_negated consistent⟩
      all_goals rw [side]; rfl

theorem Turn.after {site : Site} {messages : List String} {m m' : ParityMonitor}
    {b b₁ c : Bench κ Ledger} (turn : Turn site [] m b₁ m' c)
    (reported : Bench.Reported site messages b b₁) (alike : b₁.Alike b) :
    Turn site messages m b m' c := by
  have sum : b₁.sum = b.sum := congrArg Accumulator.value alike.accumulator
  have coin : CoinSource.flip b₁.coin = CoinSource.flip b.coin := by rw [alike.coin]
  obtain ⟨nothing, flipped, signed, draws, negations, counted, consistent⟩ := turn
  rw [coin] at flipped signed negations counted
  rw [sum] at signed
  rw [alike.draws] at draws
  rw [alike.negations] at negations
  have all := reported.trans nothing
  rw [List.append_nil] at all
  exact ⟨all, flipped, signed, draws, negations, counted, consistent⟩

/-- A call never panics and, if the monitor goes on in a consistent state, reports its
objections only. -/
theorem turn_of_consistent (m : ParityMonitor) (site : Site) (b : Bench κ Ledger)
    (consistent : (m.resumed site.iteration).Consistent) :
    ∃ m' c, (Routine.call m).run site b = (.returned m', c) ∧
      Turn site (m.objections site.iteration b.sum) (m.resumed site.iteration) b m' c ∧
      m'.last = some (site.iteration, c.sum) := by
  obtain ⟨state, reported, alike⟩ := run_observe m site.iteration b.sum site b
  obtain ⟨m', c, reacted, turn⟩ :=
    turn_react consistent site ((m.observe site.iteration b.sum).run site b).2
  rw [← state] at reacted
  obtain ⟨all, coin, sum, draws, negations, counted, consistent'⟩ := turn.after reported alike
  refine ⟨_, c, m.run_call site b reacted consistent', ?_, rfl⟩
  exact ⟨all, coin, sum, draws, negations, counted, consistent'⟩

theorem consistent_resumed_zero (m : ParityMonitor) : (m.resumed .zero).Consistent := by
  rw [resumed, if_pos rfl]
  rfl

theorem objections_zero (m : ParityMonitor) (found : Int64) :
    m.objections .zero found = complaint (found = 0) "accumulator not zero at start of run" := by
  rw [objections, if_pos rfl]

/-- Under the driver the indices follow each other, and only the sum can be objected to. -/
theorem objections_next {m : ParityMonitor} {n : Nat} {left : Int64} (small : n + 1 < 2 ^ 63)
    (last : m.last = some (.ofNat n, left)) (found : Int64) :
    m.objections (.ofNat (n + 1)) found =
      complaint (found = left + (Iteration.ofNat n).addend)
        "accumulator diverged from shadow prediction" := by
  rw [objections, if_neg (Iteration.ofNat_succ_ne_zero small), last]
  simp only [Iteration.next_ofNat]
  rfl

/-- The loop of a monitor on its own. Between two iterations the sum is the one that
the monitor predicts. -/
structure Watches (first : κ) (p : Progress κ Ledger ParityMonitor) : Prop where
  diagnostics : p.bench.diagnostics = []
  failures : p.bench.counters.failures = 0
  draws : p.bench.counters.draws = .ofNat p.calls
  coin : p.bench.coin = (flips p.calls first).2
  negations : p.bench.counters.negations = .ofNat ((flips p.calls first).1.count true)
  before : p.calls = 0 → p.bench.sum = 0
  between : ∀ n, p.calls = n + 1 → p.hook.Consistent ∧
    p.hook.negations = p.bench.counters.negations ∧
    ∃ left, p.hook.last = some (.ofNat n, left) ∧ p.bench.sum = left + (Iteration.ofNat n).addend

theorem Watches.start (m : ParityMonitor) (coin : κ) : Watches coin (.start m coin {}) where
  diagnostics := rfl
  failures := rfl
  draws := rfl
  coin := rfl
  negations := rfl
  before := fun _ => rfl
  between := by
    intro n calls
    cases calls

/-- At every index the monitor goes on in a consistent state, with the count of the
run, and finds what it expects. -/
theorem Watches.expects {first : κ} {p : Progress κ Ledger ParityMonitor} (h : Watches first p)
    (small : p.calls < 2 ^ 63) :
    (p.hook.resumed p.index).Consistent ∧
      (p.hook.resumed p.index).negations = p.bench.counters.negations ∧
      p.hook.objections p.index p.bench.sum = [] := by
  rw [Progress.index]
  cases calls : p.calls with
  | zero =>
      have count : p.bench.counters.negations = 0 := by
        rw [h.negations, calls]
        rfl
      refine ⟨consistent_resumed_zero _, ?_, ?_⟩
      · rw [count]
        rfl
      · rw [Iteration.ofNat_zero, objections_zero, h.before calls]
        rfl
  | succ n =>
      obtain ⟨consistent, count, left, last, sum⟩ := h.between n calls
      have later : p.hook.resumed (.ofNat (n + 1)) = p.hook :=
        if_neg (Iteration.ofNat_succ_ne_zero (by omega))
      rw [later, objections_next (by omega) last, sum, complaint, if_pos (decide_eq_true rfl)]
      exact ⟨consistent, count, rfl⟩

/-- The next call reports nothing and is one draw; the loop goes on as before. -/
theorem Watches.call {first : κ} {p : Progress κ Ledger ParityMonitor} (h : Watches first p)
    (small : p.calls < 2 ^ 63) (name : String) :
    ∃ m c, p.bench.callAs name p.hook p.index = (.returned m, c) ∧
      Turn ⟨name, p.index⟩ [] (p.hook.resumed p.index) p.bench m c ∧
      ∀ keep, Watches first (p.complete keep m c) := by
  obtain ⟨consistent, count, silent⟩ := h.expects small
  obtain ⟨m, c, call, turn, last⟩ := turn_of_consistent p.hook ⟨name, p.index⟩ p.bench consistent
  rw [silent] at turn
  refine ⟨m, c, call, turn, ?_⟩
  intro keep
  have reported := turn.reported
  have flipped := flips_succ p.calls first
  rw [← h.coin] at flipped
  constructor
  · change c.diagnostics = []
    rw [reported.diagnostics, h.diagnostics]
    rfl
  · change c.counters.failures = 0
    rw [reported.failures, h.failures]
    rfl
  · change c.counters.draws = .ofNat (p.calls + 1)
    rw [turn.draws, h.draws, UInt64.ofNat_add]
    rfl
  · change c.coin = (flips (p.calls + 1) first).2
    rw [turn.coin, flipped]
  · change c.counters.negations = .ofNat ((flips (p.calls + 1) first).1.count true)
    rw [turn.negations, flipped, List.count_append, UInt64.ofNat_add, ← h.negations]
    cases (CoinSource.flip p.bench.coin).1 <;> rfl
  · intro impossible
    cases impossible
  · intro n calls
    obtain rfl : p.calls = n := Nat.succ.inj calls
    refine ⟨turn.consistent, ?_, c.sum, last, rfl⟩
    change m.negations = c.counters.negations
    rw [turn.counted, turn.negations, count]

theorem Watches.step {first : κ} {p : Progress κ Ledger ParityMonitor} (h : Watches first p)
    (small : p.calls < 2 ^ 63) (name : String) (keep : Option Nat) :
    ∃ q, p.step name keep = .returned q ∧ Watches first q := by
  obtain ⟨m, c, call, -, watches⟩ := h.call small name
  exact ⟨_, Progress.step_of_call call, watches keep⟩

end ParityMonitor

namespace Rig

variable {κ : Type} [CoinSource κ]

theorem watches_of_run (r : Rig κ) (valid : r.settings.problem? = none) (m : ParityMonitor) :
    ∃ p, r.onLedger m = .returned p ∧ ParityMonitor.Watches r.coin p ∧
      p.calls = r.settings.iterations.toNat := by
  have small := Settings.iterations_lt valid
  refine onLedger_returns (ParityMonitor.Watches.start m r.coin) ?_
  intro p watches room
  exact watches.step (Nat.lt_trans room small) (Routine.name m) r.settings.keep

/-- A monitor driven on its own reports nothing, whatever state it starts in, and ends up with the
count and the parity of the ones that were drawn. -/
theorem monitor_is_silent (r : Rig κ) (valid : r.settings.problem? = none) (m : ParityMonitor)
    (elapsed : Elapsed) (out : Outlets) :
    let n := r.settings.iterations.toNat
    let ones := (flips n r.coin).1.count true
    let after := r.run m elapsed out
    ∃ s, after.ending = .completed s ∧
      (∀ d ∈ r.reported m, d.isAssertion = false) ∧
      (out.Serves r.sink → out.Gained after.outlets (r.reported m) r.sink) ∧
      s.metrics.assertionFailures = 0 ∧
      s.metrics.draws.toNat = n ∧ after.rig.coin = (flips n r.coin).2 ∧
      (1 ≤ n → after.hook.negations = s.metrics.negations ∧ s.metrics.negations.toNat = ones ∧
        (after.hook.parity = .odd ↔ ones % 2 = 1)) := by
  intro n ones after
  obtain ⟨p, run, watches, calls⟩ := r.watches_of_run valid m
  have ended : after = _ := run_of_returned run elapsed out
  have hook : after.hook = p.hook := by rw [ended]
  have fits : ones < UInt64.size := by
    have most : ones ≤ (flips n r.coin).1.length := List.count_le_length
    rw [length_flips] at most
    exact Nat.lt_of_le_of_lt most r.settings.iterations.toNat_lt
  have count : p.bench.counters.negations.toNat = ones := by
    rw [watches.negations, calls, UInt64.toNat_ofNat_of_lt' fits]
  have draws : p.bench.counters.draws.toNat = n := by
    rw [watches.draws, calls, UInt64.ofNat_toNat]
  refine ⟨r.summary p elapsed, by rw [ended], ?_, fun serves => gained_run serves m elapsed,
    watches.failures, draws, ?_, ?_⟩
  · rw [reported, run]
    simp only
    rw [p.diagnostics_close, watches.diagnostics, List.nil_append]
    exact p.internal_of_internalCheck
  · rw [ended, show n = p.calls from calls.symm]
    exact watches.coin
  · intro positive
    obtain ⟨k, last⟩ := Nat.exists_eq_add_of_le' (calls ▸ positive : 1 ≤ p.calls)
    obtain ⟨consistent, negations, -⟩ := watches.between k last
    refine ⟨?_, count, ?_⟩
    · rw [hook, negations]
      rfl
    · rw [hook, consistent, negations, Parity.ofCount_eq_odd, count]

/-- A monitor left with an odd parity, an even count and a shadow of another run. -/
theorem monitor_is_silent_from_stale_state :
    let r : Rig Coin :=
      { settings := .withIterations 5, coin := .scripted { script := #[true, false, true, true] },
        phase := .running }
    let m : ParityMonitor := { parity := .odd, negations := 6, last := some (.ofNat 7, -3) }
    r.settings.problem? = none ∧ ∃ s, (r.run m {} {}).ending = .completed s ∧
      s.metrics.assertionFailures = 0 ∧ s.metrics.negations.toNat = 4 ∧
      (r.run m {} {}).hook.negations.toNat = 4 := by
  intro r m
  have valid : r.settings.problem? = none := Settings.problem?_withIterations (by decide)
  have ones : (flips 5 r.coin).1.count true = 4 := by decide
  obtain ⟨s, ending, -, -, failures, -, -, counts⟩ := monitor_is_silent r valid m {} {}
  obtain ⟨same, drawn, -⟩ := counts (by decide)
  refine ⟨valid, s, ending, failures, drawn.trans ones, ?_⟩
  rw [same]
  exact drawn.trans ones

end Rig

end HookRig
