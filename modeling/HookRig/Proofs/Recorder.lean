import HookRig.Proofs.HandDriven
import HookRig.Proofs.Magnitude
import HookRig.Proofs.Reruns
import HookRig.Proofs.Trace

/-! # A recorder in a chain

A recorder at the front of a chain finds the sum that each call of the chain starts from, and one
at the back finds the sum that the other hooks leave. Nothing else comes of it: the chain does
what it does without the recorder.
-/

namespace HookRig

/-! ## A recorder at one end of a chain -/

namespace Hook

inductive Seat where
  | front
  | back

namespace Seat

def join {α : Type} : Seat → α → List α → List α
  | .front, a, rest => a :: rest
  | .back, a, rest => rest ++ [a]

/-- The sum that a hook at this end finds. -/
def column : Seat → TraceStep → Int64
  | .front => TraceStep.before
  | .back => TraceStep.afterHook

end Seat

variable {ε κ σ : Type} [Routine ε] [CoinSource κ] [Receiver σ]

private theorem run_call_recording (newest : List Int64) (site : Site) (b : Bench κ σ) :
    (Hook.recording newest : Hook ε).call.run site b =
      (.returned (.recording (b.sum :: newest)), b) := by
  rw [call]
  rfl

/-- A recorder notes the sum at its end, and the other hooks do what they do without it. -/
theorem run_callAll_join (seat : Seat) (newest : List Int64) {site : Site}
    {hooks hooks' : List (Hook ε)} {b c : Bench κ σ}
    (h : (callAll hooks).run site b = (.returned hooks', c)) {s : TraceStep}
    (before : s.before = b.sum) (after : s.afterHook = c.sum) :
    (callAll (seat.join (.recording newest) hooks)).run site b =
      (.returned (seat.join (.recording (seat.column s :: newest)) hooks'), c) := by
  cases seat with
  | front =>
      rw [Seat.join, run_callAll_cons, run_call_recording]
      simp only [h, Outcome.map, Seat.column, before]
      rfl
  | back =>
      rw [Seat.join, run_callAll_append, h]
      simp only [run_callAll_cons, run_call_recording, run_callAll_nil, Outcome.map, Seat.column,
        after]
      rfl

omit [Routine ε] in
def watched (seat : Seat) (newest : List Int64) : Hook ε → Hook ε
  | .chain name hooks => .chain name (seat.join (.recording newest) hooks)
  | other => other

end Hook

/-! ## Runs in a row -/

def Settings.TracesAll (s : Settings) : Prop :=
  s.recordTrace = true ∧ s.iterations.toNat ≤ s.traceLimit

instance (s : Settings) : Decidable s.TracesAll := inferInstanceAs (Decidable (_ ∧ _))

def Aftermath.steps {κ η : Type} (a : Aftermath κ η) : List TraceStep :=
  (a.ending.summary?.bind Summary.trace).getD []

namespace Rig

/-- One of several runs: what is done to the rig and to the outlets before it, and the time it
takes. -/
structure Occasion (κ : Type) where
  prepare : Rig κ × Outlets → Rig κ × Outlets := id
  elapsed : Elapsed := {}

def runs {κ η : Type} [CoinSource κ] [Routine η] (r : Rig κ) (out : Outlets) (hook : η) :
    List (Occasion κ) → List (Aftermath κ η)
  | [] => []
  | o :: rest =>
      let found := o.prepare (r, out)
      let after := found.1.run hook o.elapsed found.2
      after :: after.rig.runs after.outlets after.hook rest

end Rig

/-! ## The loop with a recorder -/

open Hook (Seat)

namespace Progress

variable {ε κ σ : Type}

/-- The loop of a chain with a recorder at one end, which holds a column of the trace. -/
def watched (seat : Seat) (newest : List Int64) (p : Progress κ σ (Hook ε)) :
    Progress κ σ (Hook ε) :=
  { p with hook := p.hook.watched seat ((p.trace.map seat.column).reverse ++ newest) }

variable [Routine ε] [CoinSource κ] [Receiver σ] {name called : String} {limit : Nat}

theorem step_watched (seat : Seat) (newest : List Int64) {p q : Progress κ σ (Hook ε)}
    {hooks : List (Hook ε)} (chain : p.hook = .chain called hooks) (room : p.trace.length < limit)
    (h : p.step name (some limit) = .returned q) :
    (∃ hooks', q.hook = .chain called hooks') ∧ q.trace.length = p.trace.length + 1 ∧
      (p.watched seat newest).step name (some limit) = .returned (q.watched seat newest) := by
  obtain ⟨hook, bench, call, rfl⟩ := step_returned h
  rw [chain] at call
  obtain ⟨hooks', calls, rfl⟩ := Hook.callAs_chain_returned call
  let next := p.complete (some limit) (.chain called hooks') bench
  let noted := (p.trace.map seat.column).reverse ++ newest
  have trace : next.trace = p.trace ++ [p.entry bench] := by
    rw [trace_complete, if_pos (by simpa using room)]
    rfl
  have left : (next.watched seat newest).hook =
      .chain called (seat.join (.recording (seat.column (p.entry bench) :: noted)) hooks') := by
    change Hook.watched seat ((next.trace.map seat.column).reverse ++ newest)
      (.chain called hooks') = _
    rw [trace, List.map_append, List.reverse_append]
    rfl
  have call' : p.bench.callAs name (p.hook.watched seat noted) p.index =
      (.returned (next.watched seat newest).hook, bench) := by
    have joined := Hook.run_callAll_join seat noted calls (s := p.entry bench) rfl rfl
    rw [chain, Hook.watched, Hook.callAs_chain, joined, left]
    rfl
  refine ⟨⟨hooks', rfl⟩, ?_, step_of_call (p := p.watched seat newest) call'⟩
  rw [trace, List.length_append]
  rfl

/-- A loop that there is room for leaves the recorder with a column of its trace. -/
theorem advance_watched (seat : Seat) (newest : List Int64) {n : Nat} {p q : Progress κ σ (Hook ε)}
    (chain : ∃ hooks, p.hook = .chain called hooks) (room : p.trace.length + n ≤ limit)
    (h : advance name (some limit) n p = .returned q) :
    (∃ hooks', q.hook = .chain called hooks') ∧
      advance name (some limit) n (p.watched seat newest) = .returned (q.watched seat newest) := by
  induction n generalizing p with
  | zero =>
      cases h
      exact ⟨chain, rfl⟩
  | succ n ih =>
      unfold advance at h
      split at h
      case h_1 m stepped =>
        obtain ⟨hooks, chain⟩ := chain
        obtain ⟨chain', length, stepped'⟩ := step_watched seat newest chain (by omega) stepped
        obtain ⟨last, rest⟩ := ih chain' (by omega) h
        refine ⟨last, ?_⟩
        simp only [advance, stepped', rest]
      case h_2 => cases h

end Progress

/-! ## One run with a recorder -/

namespace Rig

section

variable {κ η : Type} [CoinSource κ] [Routine η]

private theorem returned_of_traced {r : Rig κ} {hook : η} {q : Progress κ Ledger η}
    (h : r.traced.onLedger hook = .returned q) :
    ∃ p, r.onLedger hook = .returned p ∧ p.hook = q.hook ∧ p.bench = q.bench ∧
      p.internalCheck = q.internalCheck := by
  have coin : r.traced.coin = r.coin := rfl
  have sinks : ({} : Ledger) = {} := rfl
  have related : (r.traced.onLedger hook).Related
      (Progress.Agree Eq (some r.settings.iterations.toNat) r.settings.keep) (r.onLedger hook) :=
    loop_agree (fun _ _ d same => by rw [same]) coin hook sinks _
  rw [h] at related
  obtain ⟨p, returned, agree⟩ := related.of_returned
  exact ⟨p, returned, agree.hook.symm, agree.bench.eq.symm, agree.books.internalCheck.symm⟩

/-- Hooks of one name whose runs differ in nothing but the hooks that they leave. -/
private theorem run_eq_but_hook {r : Rig κ} {hook hook' : η}
    (name : Routine.name hook' = Routine.name hook) {p q : Progress κ Ledger η}
    (h : r.onLedger hook = .returned p) (h' : r.onLedger hook' = .returned q)
    (bench : q.bench = p.bench) (check : q.internalCheck = p.internalCheck)
    (history : r.history hook' = r.history hook) (elapsed : Elapsed) (out : Outlets) :
    r.run hook' elapsed out = { r.run hook elapsed out with hook := q.hook } := by
  have reported : r.reported hook' = r.reported hook := by
    rw [reported_of_returned h', reported_of_returned h, bench, check]
  have delivered : r.delivered hook' out = r.delivered hook out := by
    rw [Rig.delivered, Rig.delivered, reported, started, started, name]
  have metrics : q.metrics = p.metrics := by
    rw [Progress.metrics, Progress.metrics, bench, check, calls_of_returned h, calls_of_returned h']
  have trace : (r.summary q elapsed).trace = (r.summary p elapsed).trace := by
    rw [trace_of_returned h', trace_of_returned h, history]
  have summary : r.summary q elapsed = r.summary p elapsed := by
    change Summary.mk _ _ q.bench.sum q.metrics (r.summary q elapsed).trace = _
    rw [bench, metrics, trace]
    rfl
  rw [run_of_returned h', run_of_returned h, delivered, summary, name, bench]

end

variable {κ ε : Type} [CoinSource κ] [Routine ε]

/-- A run with a recorder is the run without it, but that the recorder holds a column of its
history. -/
theorem run_watched (seat : Seat) (newest : List Int64) {r : Rig κ} {name : String}
    {hooks : List (Hook ε)} {p : Progress κ Ledger (Hook ε)}
    (h : r.onLedger (.chain name hooks : Hook ε) = .returned p) (elapsed : Elapsed)
    (out : Outlets) :
    let steps := r.history (.chain name hooks : Hook ε)
    ∃ hooks', p.hook = .chain name hooks' ∧
      r.run (.chain name (seat.join (.recording newest) hooks) : Hook ε) elapsed out =
        { r.run (.chain name hooks : Hook ε) elapsed out with
          hook := .chain name
            (seat.join (.recording ((steps.map seat.column).reverse ++ newest)) hooks') } := by
  intro steps
  let hook : Hook ε := .chain name hooks
  let hook' : Hook ε := .chain name (seat.join (.recording newest) hooks)
  obtain ⟨q, traced, trace, agree⟩ := traced_of_returned h
  rw [onLedger_traced] at traced
  have start : ∃ hooks', (Progress.start hook r.coin ({} : Ledger)).hook = .chain name hooks' :=
    ⟨hooks, rfl⟩
  obtain ⟨⟨hooks', chain⟩, watched⟩ :=
    Progress.advance_watched seat newest start (Nat.zero_add _).le traced
  have traced' : r.traced.onLedger hook' = .returned (q.watched seat newest) := watched
  have history : r.history hook' = r.history hook := by
    rw [Rig.history, traced', ← trace]
    rfl
  obtain ⟨p', h', left, bench, check⟩ := returned_of_traced traced'
  have named : Routine.name hook' = Routine.name hook := rfl
  have same := run_eq_but_hook named h h' (bench.trans agree.bench.eq.symm)
    (check.trans agree.books.internalCheck.symm) history elapsed out
  have noted : q.trace = steps := trace
  rw [left, Progress.watched, chain, noted] at same
  exact ⟨hooks', agree.hook.trans chain, same⟩

/-! ## All runs with a recorder -/

private theorem steps_of_returned {η : Type} [Routine η] {r : Rig κ} {hook : η}
    {p : Progress κ Ledger η}
    (whole : r.settings.TracesAll) (h : r.onLedger hook = .returned p) (elapsed : Elapsed)
    (out : Outlets) : (r.run hook elapsed out).steps = r.history hook := by
  have keep : r.settings.keep = some r.settings.traceLimit := if_pos whole.1
  have length := (history_at h).1
  rw [Aftermath.steps, completed_of_returned h]
  change ((r.summary p elapsed).trace).getD [] = _
  rw [trace_of_returned h, keep]
  exact List.take_of_length_le (length.trans_le whole.2)

private theorem length_runs {η : Type} [Routine η] (r : Rig κ) (out : Outlets) (hook : η)
    (occasions : List (Occasion κ)) : (r.runs out hook occasions).length = occasions.length := by
  induction occasions generalizing r out hook with
  | nil => rfl
  | cons o rest ih => exact congrArg (· + 1) (ih ..)

theorem completed_runs {η : Type} [Routine η] {hook : η} (calm : Routine.Calm hook) (r : Rig κ)
    (out : Outlets) (occasions : List (Occasion κ)) :
    ∀ a ∈ r.runs out hook occasions, ∃ s, a.ending = .completed s := by
  induction occasions generalizing r out hook with
  | nil => exact List.forall_mem_nil _
  | cons o rest ih =>
      let found := o.prepare (r, out)
      obtain ⟨p, returned⟩ : ∃ p, found.1.onLedger hook = .returned p :=
        Progress.advance_of_calm calm _
      have later : Routine.Calm p.hook := by
        refine Progress.hook_of_advance (fun h calm => calm.call.mono ?_) calm returned
        rintro _ ⟨hook', rfl, calm'⟩
        exact calm'
      have ended := run_of_returned returned o.elapsed found.2
      rw [runs, List.forall_mem_cons, show found.1.run hook o.elapsed found.2 = _ from ended]
      exact ⟨⟨_, rfl⟩, ih later _ _⟩

private theorem exists_of_mem_runs {η : Type} [Routine η] {r : Rig κ} {out : Outlets} {hook : η}
    {occasions : List (Occasion κ)} {a : Aftermath κ η} (member : a ∈ r.runs out hook occasions) :
    ∃ (r' : Rig κ) (hook' : η) (elapsed : Elapsed) (out' : Outlets),
      a = r'.run hook' elapsed out' ∧ a.rig.settings = r'.settings := by
  induction occasions generalizing r out hook with
  | nil => cases member
  | cons o rest ih =>
      rcases List.mem_cons.mp member with first | later
      · exact ⟨_, _, _, _, first, first ▸ (rig_run ..).1⟩
      · exact ih later

private theorem length_steps {η : Type} [Routine η] {r : Rig κ} {out : Outlets} {hook : η}
    {occasions : List (Occasion κ)} {a : Aftermath κ η} (member : a ∈ r.runs out hook occasions)
    {s : Summary} (completed : a.ending = .completed s) (whole : a.rig.settings.TracesAll) :
    a.steps.length = a.rig.settings.iterations.toNat := by
  obtain ⟨r', hook', elapsed, out', rfl, settings⟩ := exists_of_mem_runs member
  obtain ⟨p, returned, -⟩ := returned_of_completed completed
  rw [settings] at whole ⊢
  rw [steps_of_returned whole returned, (history_at returned).1]

/-- Runs in a row with a recorder are the runs without it. The recorder goes on from run to
run. -/
theorem runs_watched (seat : Seat) {name : String} {hooks : List (Hook ε)} (newest : List Int64)
    {r : Rig κ} {out : Outlets} {occasions : List (Occasion κ)}
    (whole : ∀ a ∈ r.runs out (.chain name hooks : Hook ε) occasions,
      (∃ s, a.ending = .completed s) ∧ a.rig.settings.TracesAll)
    {i : Nat} {a : Aftermath κ (Hook ε)}
    (h : (r.runs out (.chain name hooks : Hook ε) occasions)[i]? = some a) :
    let sums := ((r.runs out (.chain name hooks : Hook ε) occasions).take (i + 1)).flatMap
      (·.steps.map seat.column)
    ∃ hooks', a.hook = .chain name hooks' ∧
      (r.runs out (.chain name (seat.join (.recording newest) hooks) : Hook ε) occasions)[i]? =
        some { a with
          hook := .chain name (seat.join (.recording (sums.reverse ++ newest)) hooks') } := by
  induction occasions generalizing r out hooks newest i with
  | nil => cases h
  | cons o rest ih =>
      let found := o.prepare (r, out)
      let first := found.1.run (.chain name hooks : Hook ε) o.elapsed found.2
      -- The hooks that the first run leaves go on to the others, with the recorder at the same end.
      let noted := (first.steps.map seat.column).reverse ++ newest
      obtain ⟨⟨s, completed⟩, traced⟩ := (List.forall_mem_cons.mp whole).1
      obtain ⟨p, returned, -⟩ := returned_of_completed completed
      obtain ⟨hooks', chain, same⟩ := run_watched seat newest returned o.elapsed found.2
      have left : first.hook = .chain name hooks' := by
        rw [show first = _ from run_of_returned returned o.elapsed found.2, chain]
      have settings := (found.1.rig_run (.chain name hooks : Hook ε) o.elapsed found.2).1
      have steps : first.steps = found.1.history (.chain name hooks : Hook ε) :=
        steps_of_returned (settings ▸ traced) returned o.elapsed found.2
      rw [← steps] at same
      have plain : r.runs out (.chain name hooks : Hook ε) (o :: rest) =
          first :: first.rig.runs first.outlets (.chain name hooks' : Hook ε) rest := by
        rw [← left]
        rfl
      let hook' : Hook ε := .chain name (seat.join (.recording noted) hooks')
      have watched : r.runs out (.chain name (seat.join (.recording newest) hooks) : Hook ε)
          (o :: rest) =
            { first with hook := hook' } :: first.rig.runs first.outlets hook' rest := by
        rw [runs, same]
      rw [plain] at whole h ⊢
      rw [watched]
      cases i with
      | zero =>
          have here : first = a := Option.some.inj h
          refine ⟨hooks', here ▸ left, ?_⟩
          simp [← here, hook', noted]
      | succ i =>
          obtain ⟨hooks'', chain', later⟩ := ih noted (List.forall_mem_cons.mp whole).2 h
          refine ⟨hooks'', chain', ?_⟩
          simp only [List.getElem?_cons_succ, List.take_succ_cons, List.flatMap_cons,
            List.reverse_append, List.append_assoc]
          exact later

theorem history_empty_chain {r : Rig κ} (valid : r.settings.problem? = none) (name : String)
    (seat : Seat) :
    (r.history (.chain name [] : Hook ε)).map seat.column =
      (List.range r.settings.iterations.toNat).map fun i : ℕ => Int64.ofInt (i * (i - 1) / 2) := by
  let hook : Hook ε := .chain name []
  have small := Settings.iterations_lt valid
  obtain ⟨kept, s, ending, -⟩ : r.Negates hook {} {} ∅ := by
    refine negates_never valid ?_ {} {}
    intro site b
    rw [Hook.call, Hook.callAll]
    exact ⟨b, rfl, b.turned_of_choice false⟩
  obtain ⟨p, returned, -⟩ := returned_of_completed ending
  have length := (history_at returned).1
  have linked := r.linked_history hook
  refine List.ext_getElem (by simp [hook, length]) ?_
  intro i inside _
  have bound : i < (r.history hook).length := by rwa [List.length_map] at inside
  have below : i < r.settings.iterations.toNat := length ▸ bound
  have same : seat.column (r.history hook)[i] = (r.history hook)[i].before := by
    cases seat
    · rfl
    · exact kept.kept bound
  have modulo := linked.before_modEq kept bound (by omega)
  rw [signedSum_empty] at modulo
  rw [List.getElem_map, List.getElem_map, List.getElem_range, same, ← Int64.toInt_inj,
    toInt_eq_bmod modulo, Int64.toInt_ofInt]
  rfl

/-- In runs that record their whole traces, a recorder at either end of a chain sees one column of
them, and changes nothing else. -/
theorem recorder_sees_the_trace (r : Rig κ) (out : Outlets) (name : String)
    (hooks : List (Hook ε)) (newest : List Int64) (occasions : List (Occasion κ)) :
    let seen := (Hook.recording newest : Hook ε).seen
    let plain := r.runs out (.chain name hooks : Hook ε) occasions
    let first := r.runs out (.chain name (.recording newest :: hooks) : Hook ε) occasions
    let last := r.runs out (.chain name (hooks ++ [.recording newest]) : Hook ε) occasions
    plain.length = occasions.length ∧
      ((∀ h ∈ hooks, Routine.Calm h) → ∀ a ∈ plain, ∃ s, a.ending = .completed s) ∧
      ((∀ a ∈ plain, (∃ s, a.ending = .completed s) ∧ a.rig.settings.TracesAll) →
        ∀ i a, plain[i]? = some a → ∃ hooks' early late,
          a.hook = .chain name hooks' ∧
          first[i]? = some { a with hook := .chain name (.recording early :: hooks') } ∧
          last[i]? = some { a with hook := .chain name (hooks' ++ [.recording late]) } ∧
          (Hook.recording early : Hook ε).seen =
            seen ++ (plain.take (i + 1)).flatMap (·.steps.map (·.before)) ∧
          (Hook.recording late : Hook ε).seen =
            seen ++ (plain.take (i + 1)).flatMap (·.steps.map (·.afterHook)) ∧
          a.steps.length = a.rig.settings.iterations.toNat) ∧
      (r.settings.problem? = none → ∀ elapsed, ∃ noted,
        (r.run (.chain name [.recording newest] : Hook ε) elapsed out).hook =
          .chain name [.recording noted] ∧
        (Hook.recording noted : Hook ε).seen =
          seen ++ (List.range r.settings.iterations.toNat).map
            fun i : ℕ => Int64.ofInt (i * (i - 1) / 2)) := by
  intro seen plain first last
  refine ⟨r.length_runs out _ occasions, ?_, ?_, ?_⟩
  · intro calm
    exact completed_runs (Hook.calm_chain name calm) r out occasions
  · intro whole i a here
    obtain ⟨hooks', chain, front⟩ := runs_watched .front newest whole here
    obtain ⟨hooks'', chain', back⟩ := runs_watched .back newest whole here
    cases chain.symm.trans chain'
    refine ⟨hooks', _, _, chain, front, back, ?_, ?_, ?_⟩
    · rw [Hook.seen, List.reverse_append, List.reverse_reverse]
      rfl
    · rw [Hook.seen, List.reverse_append, List.reverse_reverse]
      rfl
    · obtain ⟨⟨s, completed⟩, traced⟩ := whole a (List.mem_of_getElem? here)
      exact length_steps (List.mem_of_getElem? here) completed traced
  · intro valid elapsed
    obtain ⟨p, returned⟩ : ∃ p, r.onLedger (.chain name [] : Hook ε) = .returned p :=
      Progress.advance_of_calm (Hook.calm_chain name (List.forall_mem_nil _)) _
    obtain ⟨hooks', chain, same⟩ := run_watched .front newest returned elapsed out
    have unchanged : p.hook = .chain name [] := by
      refine Progress.hook_of_advance (I := (· = .chain name [])) ?_ rfl returned
      rintro _ rfl
      change (Hook.call _).Ensures _
      rw [Hook.call, Hook.callAll]
      rfl
    cases chain.symm.trans unchanged
    refine ⟨_, congrArg Aftermath.hook same, ?_⟩
    rw [Hook.seen, List.reverse_append, List.reverse_reverse, history_empty_chain valid]
    rfl

/-- Two runs with a recorder that has seen a sum before, at either end of a chain that draws, fails
checks and changes the sum. The second run is given another coin. -/
theorem recorder_sees_the_trace_twice :
    let settings : Settings := { iterations := 3, recordTrace := true, traceLimit := 3 }
    let r : Rig ScriptedCoin := { settings, coin := { script := #[true, false, false] } }
    let hooks : List (Hook Script) := [.nondetAntiOp, .failing 2, .tamper 4]
    let occasions : List (Occasion ScriptedCoin) :=
      [{}, { prepare := fun found => (found.1.withCoin { script := #[false, true] }, found.2) }]
    let first : List (Aftermath ScriptedCoin (Hook Script)) :=
      r.runs {} (.chain "outer" (.recording [7] :: hooks)) occasions
    let last : List (Aftermath ScriptedCoin (Hook Script)) :=
      r.runs {} (.chain "outer" (hooks ++ [.recording [7]])) occasions
    ∃ hooks' early late,
      first[1]?.map (·.hook) = some (.chain "outer" (.recording early :: hooks')) ∧
      (Hook.recording early : Hook Script).seen = [7, 0, 4, 9, 0, 4, 1] ∧
      last[1]?.map (·.hook) = some (.chain "outer" (hooks' ++ [.recording late])) ∧
      (Hook.recording late : Hook Script).seen = [7, 4, 8, 13, 4, 0, 5] := by
  intro settings r hooks occasions first last
  let plain : List (Aftermath ScriptedCoin (Hook Script)) :=
    r.runs {} (.chain "outer" hooks) occasions
  have calm : ∀ h ∈ hooks, Routine.Calm h := by
    simp only [hooks, List.mem_cons, List.not_mem_nil, or_false]
    rintro h (rfl | rfl | rfl) <;> exact Hook.calm_of_isPlain rfl
  have traced : ∀ a ∈ plain, a.rig.settings.TracesAll := by decide +kernel
  rcases recorder_sees_the_trace r {} "outer" hooks [7] occasions with ⟨-, completes, sees, -⟩
  have whole := fun a member => And.intro (completes calm a member) (traced a member)
  obtain ⟨a, here⟩ : ∃ a, plain[1]? = some a := ⟨_, rfl⟩
  obtain ⟨hooks', early, late, chain, front, back, seen, seen', -⟩ := sees whole 1 a here
  refine ⟨hooks', early, late, congrArg (Option.map Aftermath.hook) front, seen.trans ?_,
    congrArg (Option.map Aftermath.hook) back, seen'.trans ?_⟩
  · decide +kernel
  · decide +kernel

end Rig

end HookRig
