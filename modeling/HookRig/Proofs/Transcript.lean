import HookRig.Hook.Script
import HookRig.Proofs.Reports
import HookRig.Proofs.Sinks

/-! # The transcript of a run

The transcript lists all that was said between the hook of a run and its bench, each
exchange under its iteration. The diagnostics of the run can be read off it: they are the
checks that failed, in the order they were made, each under the name of the hook that is
driven and in its own iteration. At most one more follows, from the check of the run itself.
So can its counters, which come round to zero where a count does not fit.
-/

namespace HookRig

/-! ## What a transcript tells -/

def failedChecks (transcript : List (Iteration × Exchange)) : List (Iteration × String) :=
  transcript.flatMap fun e => e.2.complaints.map (e.1, ·)

theorem failedChecks_append (first rest : List (Iteration × Exchange)) :
    failedChecks (first ++ rest) = failedChecks first ++ failedChecks rest :=
  List.flatMap_append

private theorem failedChecks_singleton (i : Iteration) (e : Exchange) :
    failedChecks [(i, e)] = e.complaints.map (i, ·) :=
  List.append_nil _

private theorem mem_of_failedChecks {transcript : List (Iteration × Exchange)}
    {c : Iteration × String}
    (member : c ∈ failedChecks transcript) : ∃ e ∈ transcript, e.1 = c.1 := by
  obtain ⟨e, made, told⟩ := List.mem_flatMap.mp member
  obtain ⟨message, -, rfl⟩ := List.mem_map.mp told
  exact ⟨e, made, rfl⟩

theorem failedChecks_sorted {transcript : List (Iteration × Exchange)}
    (sorted : (transcript.map (·.1.index.toNat)).Pairwise (· ≤ ·)) :
    ((failedChecks transcript).map (·.1.index.toNat)).Pairwise (· ≤ ·) := by
  rw [List.pairwise_map] at sorted ⊢
  refine List.pairwise_flatMap.mpr ⟨?_, ?_⟩
  · intro e _
    rw [List.pairwise_map]
    exact List.pairwise_of_forall fun _ _ => Nat.le_refl _
  · refine sorted.imp ?_
    intro e e' le c here c' there
    obtain ⟨_, -, rfl⟩ := List.mem_map.mp here
    obtain ⟨_, -, rfl⟩ := List.mem_map.mp there
    exact le

def Exchange.drawn : Exchange → List Bool
  | ⟨.draw, side⟩ => [side]
  | _ => []

def drawnSides (transcript : List (Iteration × Exchange)) : List Bool :=
  transcript.flatMap (·.2.drawn)

theorem drawnSides_append (first rest : List (Iteration × Exchange)) :
    drawnSides (first ++ rest) = drawnSides first ++ drawnSides rest :=
  List.flatMap_append

def Exchange.negates (e : Exchange) : Bool := e.request matches .antiOp

def negationCount (transcript : List (Iteration × Exchange)) : Nat :=
  transcript.countP (·.2.negates)

theorem negationCount_append (first rest : List (Iteration × Exchange)) :
    negationCount (first ++ rest) = negationCount first + negationCount rest :=
  List.countP_append

/-- Nothing happens so often that a counter comes round to zero. -/
structure CountsFit (transcript : List (Iteration × Exchange)) : Prop where
  negations : negationCount transcript < UInt64.size
  draws : (drawnSides transcript).length < UInt64.size
  failures : (failedChecks transcript).length < UInt64.size

def Diagnostic.assertions (name : String) (checks : List (Iteration × String)) : List Diagnostic :=
  checks.map fun c => .assertion c.1 name c.2

theorem Program.exchanges_agree {κ σ τ α : Type} [CoinSource κ] [Receiver σ] [Receiver τ]
    {S : σ → τ → Prop}
    (receive : ∀ s t d, S s t → S (Receiver.receive s d) (Receiver.receive t d))
    (site : Site) (p : Program α) {b : Bench κ σ} {c : Bench κ τ} (h : b.Agree S c) :
    p.exchanges site b = p.exchanges site c := by
  induction p generalizing b c with
  | done a => rfl
  | ask r next ih =>
      obtain ⟨reply, after⟩ := h.answer receive site r
      simp only [exchanges]
      rw [reply, ih _ after]

/-! ## Tracking a bench -/

/-- A relation between two states of a bench and all that was said in between, which can be
checked exchange by exchange. -/
structure Bench.Tracked {κ σ : Type} [CoinSource κ] [Receiver σ] (name : String)
    (T : List (Iteration × Exchange) → Bench κ σ → Bench κ σ → Prop) : Prop where
  nothing : ∀ b, T [] b b
  addIndex : ∀ b i, T [] b (b.addIndex i)
  answer : ∀ i b r, T [(i, ⟨r, (b.answer ⟨name, i⟩ r).1⟩)] b (b.answer ⟨name, i⟩ r).2
  trans : ∀ {first rest b c d}, T first b c → T rest c d → T (first ++ rest) b d

theorem Program.tracked_run {κ σ α : Type} [CoinSource κ] [Receiver σ] {name : String}
    {T : List (Iteration × Exchange) → Bench κ σ → Bench κ σ → Prop} (h : Bench.Tracked name T)
    (i : Iteration) (p : Program α) (b : Bench κ σ) :
    T ((p.exchanges ⟨name, i⟩ b).map (i, ·)) b (p.run ⟨name, i⟩ b).2 := by
  induction p generalizing b with
  | done a => exact h.nothing b
  | ask r next ih => exact h.trans (h.answer i b r) (ih _ _)

/-- The counters between two states of a bench. They come round to zero at `2 ^ 64`. -/
structure Bench.Counted {κ σ : Type} (es : List (Iteration × Exchange)) (b c : Bench κ σ) :
    Prop where
  negations : c.counters.negations = b.counters.negations + .ofNat (negationCount es)
  draws : c.counters.draws = b.counters.draws + .ofNat (drawnSides es).length
  failures : c.counters.failures = b.counters.failures + .ofNat (failedChecks es).length

theorem Bench.Counted.nothing {κ σ : Type} {es : List (Iteration × Exchange)} {b c : Bench κ σ}
    (same : c.counters = b.counters)
    (none : negationCount es = 0 ∧ drawnSides es = [] ∧ failedChecks es = []) :
    Counted es b c := by
  obtain ⟨negations, draws, failures⟩ := none
  constructor
  · rw [same, negations]
    exact (UInt64.add_zero _).symm
  · rw [same, draws]
    exact (UInt64.add_zero _).symm
  · rw [same, failures]
    exact (UInt64.add_zero _).symm

/-- Each exchange that is to be counted is counted once, and nothing else is. -/
theorem Bench.tracked_counted {κ σ : Type} [CoinSource κ] [Receiver σ] (name : String) :
    Tracked (κ := κ) (σ := σ) name Counted where
  nothing b := .nothing rfl ⟨rfl, rfl, rfl⟩
  addIndex b i := .nothing rfl ⟨rfl, rfl, rfl⟩
  answer i b r := by
    cases r with
    | antiOp => exact ⟨rfl, (UInt64.add_zero _).symm, (UInt64.add_zero _).symm⟩
    | draw => exact ⟨(UInt64.add_zero _).symm, rfl, (UInt64.add_zero _).symm⟩
    | check holds message =>
        cases holds with
        | true => exact .nothing rfl ⟨rfl, rfl, rfl⟩
        | false => exact ⟨(UInt64.add_zero _).symm, (UInt64.add_zero _).symm, rfl⟩
    | iteration | sum | counters | store | note => exact .nothing rfl ⟨rfl, rfl, rfl⟩
  trans first rest := by
    constructor
    · rw [rest.negations, first.negations, negationCount_append, UInt64.ofNat_add,
        UInt64.add_assoc]
    · rw [rest.draws, first.draws, drawnSides_append, List.length_append, UInt64.ofNat_add,
        UInt64.add_assoc]
    · rw [rest.failures, first.failures, failedChecks_append, List.length_append,
        UInt64.ofNat_add, UInt64.add_assoc]

/-! ## Loops -/

namespace Progress

variable {κ σ τ η : Type} [CoinSource κ] [Receiver σ] [Receiver τ] [Routine η]

/-- All exchanges of so many iterations. A panic ends the transcript. -/
def transcript (name : String) (keep : Option Nat) :
    Nat → Progress κ σ η → List (Iteration × Exchange)
  | 0, _ => []
  | n + 1, p =>
      ((Routine.call p.hook).exchanges ⟨name, p.index⟩ p.bench).map (p.index, ·) ++
        match p.step name keep with
        | .returned q => transcript name keep n q
        | .panicked _ _ => []

theorem transcript_agree {S : σ → τ → Prop} {keep keep' : Option Nat}
    (receive : ∀ s t d, S s t → S (Receiver.receive s d) (Receiver.receive t d))
    (name : String) (n : Nat) {p : Progress κ σ η} {q : Progress κ τ η}
    (h : p.Agree S keep keep' q) :
    p.transcript name keep n = q.transcript name keep' n := by
  induction n generalizing p q with
  | zero => rfl
  | succ n ih =>
      have index : p.index = q.index := by rw [Progress.index, Progress.index, h.books.calls]
      have first := (Routine.call q.hook).exchanges_agree receive ⟨name, q.index⟩ h.bench
      have related := h.step receive name
      unfold transcript
      rw [h.hook, index, first]
      congr 1
      generalize p.step name keep = left at related
      generalize q.step name keep' = right at related
      cases related with
      | returned states => exact ih states
      | panicked states => rfl

variable {name : String} {keep : Option Nat}

theorem transcript_add (name : String) (keep : Option Nat) (m n : Nat) (p : Progress κ σ η) :
    p.transcript name keep (m + n) = p.transcript name keep m ++
      match advance name keep m p with
      | .returned q => q.transcript name keep n
      | .panicked _ _ => [] := by
  induction m generalizing p with
  | zero => simp [transcript, advance]
  | succ m ih =>
      rw [Nat.succ_add, transcript, transcript, advance, List.append_assoc]
      cases p.step name keep with
      | returned q => exact congrArg _ (ih q)
      | panicked q message => rfl

theorem tracked_step {T : List (Iteration × Exchange) → Bench κ σ → Bench κ σ → Prop}
    (h : Bench.Tracked name T) (keep : Option Nat) (p : Progress κ σ η) :
    T (((Routine.call p.hook).exchanges ⟨name, p.index⟩ p.bench).map (p.index, ·)) p.bench
      (p.step name keep).state.bench := by
  have called := (Routine.call p.hook).tracked_run h p.index p.bench
  unfold step Bench.callAs
  cases ran : (Routine.call p.hook).run ⟨name, p.index⟩ p.bench with
  | mk outcome bench =>
      rw [ran] at called
      cases outcome with
      | panicked hook message => exact called
      | returned hook =>
          have added := h.trans called (h.addIndex bench p.index)
          rw [List.append_nil] at added
          exact added

theorem tracked_advance {T : List (Iteration × Exchange) → Bench κ σ → Bench κ σ → Prop}
    (h : Bench.Tracked name T) (keep : Option Nat) (n : Nat) (p : Progress κ σ η) :
    T (p.transcript name keep n) p.bench (advance name keep n p).state.bench := by
  induction n generalizing p with
  | zero => exact h.nothing p.bench
  | succ n ih =>
      have first := tracked_step h keep p
      unfold transcript advance
      cases stepped : p.step name keep with
      | returned q =>
          rw [stepped] at first
          exact h.trans first (ih q)
      | panicked q message =>
          rw [stepped] at first
          simpa using first

/-- The checks that fail are reported, and nothing else is. -/
theorem tracked_failedChecks (name : String) :
    Bench.Tracked name fun es (b c : Bench κ Ledger) =>
      c.diagnostics = b.diagnostics ++ Diagnostic.assertions name (failedChecks es) where
  nothing b := by simp [failedChecks, Diagnostic.assertions]
  addIndex b i := by
    simp [failedChecks, Diagnostic.assertions, Bench.addIndex, Bench.diagnostics]
  answer i b r := by
    cases r with
    | check holds message =>
        rw [failedChecks_singleton, Exchange.complaints]
        refine (b.reported_check ⟨name, i⟩ holds message).diagnostics.trans ?_
        simp [Diagnostic.failures, Diagnostic.assertions]
    | _ => exact (List.append_nil _).symm
  trans first rest := by
    rw [rest, first]
    simp [failedChecks_append, Diagnostic.assertions]

theorem reported_advance {n : Nat} {p q : Progress κ Ledger η}
    (h : advance name keep n p = .returned q) :
    q.bench.diagnostics = p.bench.diagnostics ++
      Diagnostic.assertions name (failedChecks (p.transcript name keep n)) := by
  have reported := tracked_advance (tracked_failedChecks name) keep n p
  rw [h] at reported
  exact reported

/-- The iterations of a transcript never go back, and lie between the first and the last. -/
theorem iterations_transcript (name : String) (keep : Option Nat) (n : Nat) (p : Progress κ σ η)
    (small : p.calls + n ≤ UInt64.size) :
    ((p.transcript name keep n).map (·.1.index.toNat)).Pairwise (· ≤ ·) ∧
      ∀ i ∈ (p.transcript name keep n).map (·.1.index.toNat), p.calls ≤ i ∧ i < p.calls + n := by
  induction n generalizing p with
  | zero => simp [transcript]
  | succ n ih =>
      have index : p.index.index.toNat = p.calls := UInt64.toNat_ofNat_of_lt' (by omega)
      -- The first call is all at one index, and what follows is at later ones.
      generalize called : ((Routine.call p.hook).exchanges ⟨name, p.index⟩ p.bench) = es
      have first :
          (es.map (p.index, ·)).map (·.1.index.toNat) = List.replicate es.length p.calls := by
        simp [Function.comp_def, index, List.map_const']
      unfold transcript
      rw [called]
      cases stepped : p.step name keep with
      | panicked next message =>
          simp only [List.append_nil, first]
          constructor
          · simp [List.pairwise_replicate]
          · intro i member
            rw [List.eq_of_mem_replicate member]
            omega
      | returned next =>
          have calls := calls_of_step stepped
          obtain ⟨sorted, bounds⟩ := ih next (by omega)
          simp only [List.map_append, first]
          constructor
          · rw [List.pairwise_append]
            refine ⟨by simp [List.pairwise_replicate], sorted, ?_⟩
            intro i here j there
            have later := bounds j there
            rw [List.eq_of_mem_replicate here]
            omega
          · intro i member
            rcases List.mem_append.mp member with here | there
            · rw [List.eq_of_mem_replicate here]
              omega
            · have later := bounds i there
              omega

end Progress

/-! ## Runs -/

namespace Rig

variable {κ η : Type} [CoinSource κ] [Routine η]

theorem assertions_of_returned {r : Rig κ} {hook : η} {p : Progress κ Ledger η}
    (h : r.onLedger hook = .returned p) : ∀ d ∈ p.bench.diagnostics, d.isAssertion = true := by
  intro d member
  have reported : p.bench.diagnostics = [] ++ _ := Progress.reported_advance h
  rw [reported, List.nil_append] at member
  obtain ⟨check, -, rfl⟩ := List.mem_map.mp member
  rfl

/-- Without the check of the run itself, the diagnostics of a run are those of its calls. -/
theorem assertions_of_reported {r : Rig κ} {hook : η} {p : Progress κ Ledger η}
    (h : r.onLedger hook = .returned p) :
    (r.reported hook).filter (·.isAssertion) = p.bench.diagnostics := by
  have calls := List.filter_eq_self.mpr (assertions_of_returned h)
  have own : p.internalCheck.toList.filter (·.isAssertion) = [] := by
    rw [List.filter_eq_nil_iff]
    intro d member
    simp [p.internal_of_internalCheck d member]
  rw [reported_of_returned h, List.filter_append, calls, own, List.append_nil]

def transcript (r : Rig κ) (hook : η) (out : Outlets) : List (Iteration × Exchange) :=
  (Progress.start hook r.coin (Delivery.mk r.sink (r.started hook out))).transcript
    (Routine.name hook) r.settings.keep r.settings.iterations.toNat

theorem transcript_eq_onLedger (r : Rig κ) (hook : η) (out : Outlets) :
    r.transcript hook out = (Progress.start hook r.coin ({} : Ledger)).transcript
      (Routine.name hook) r.settings.keep r.settings.iterations.toNat := by
  refine Progress.transcript_agree (S := fun _ _ => True) (fun _ _ _ _ => trivial) _ _ ?_
  exact .start hook r.coin trivial

theorem diagnostics_onLedger (r : Rig κ) (hook : η) (out : Outlets) :
    (r.onLedger hook).state.bench.diagnostics =
      Diagnostic.assertions (Routine.name hook) (failedChecks (r.transcript hook out)) := by
  have tracked := Progress.tracked_advance (Progress.tracked_failedChecks (Routine.name hook))
    r.settings.keep r.settings.iterations.toNat (.start hook r.coin ({} : Ledger))
  rw [← r.transcript_eq_onLedger hook out] at tracked
  exact tracked

/-- The counters of a completed run, as the remainders of what they count. -/
theorem metrics_of_returned {r : Rig κ} {hook : η} {p : Progress κ Ledger η}
    (h : r.onLedger hook = .returned p) (out : Outlets) :
    let said := r.transcript hook out
    p.metrics.negations = .ofNat (negationCount said) ∧
      p.metrics.draws = .ofNat (drawnSides said).length ∧
      p.metrics.assertionFailures = .ofNat (failedChecks said).length := by
  have counted : ({ coin := r.coin, sink := {} } : Bench κ Ledger).Counted _ _ :=
    Progress.tracked_advance (Bench.tracked_counted (Routine.name hook)) r.settings.keep
      r.settings.iterations.toNat (.start hook r.coin ({} : Ledger))
  rw [← r.transcript_eq_onLedger hook out, show Progress.advance _ _ _ _ = _ from h] at counted
  exact ⟨counted.negations.trans (UInt64.zero_add _), counted.draws.trans (UInt64.zero_add _),
    counted.failures.trans (UInt64.zero_add _)⟩

/-- A run that completes adds to its buffer the checks that failed, in the order they were made,
then what its own check finds. These are as many as it counts. -/
theorem failures_reported_in_order (r : Rig κ) (hook : η) (elapsed : Elapsed) (out : Outlets)
    (handle : Nat) (installed : r.sink = .buffer handle) (live : out.buffers.Live handle)
    (s : Summary) (completed : (r.run hook elapsed out).ending = .completed s) :
    let failed := failedChecks (r.transcript hook out)
    ∃ own : List Diagnostic,
      (r.run hook elapsed out).outlets.buffers.diagnostics handle =
          out.buffers.diagnostics handle ++
            (failed.map (fun c => .assertion c.1 (Routine.name hook) c.2) ++ own) ∧
        s.metrics.assertionFailures = .ofNat failed.length ∧
        s.metrics.internalFailures.toNat = own.length ∧ own.length ≤ 1 ∧
        (∀ d ∈ own, ∃ message, d = .internal message) ∧
        s.metrics.failures = .ofNat (failed.length + own.length) ∧
        (failed.length + own.length < UInt64.size →
          failed.length = s.metrics.assertionFailures.toNat ∧
            failed.length + own.length = s.metrics.failures.toNat) ∧
        (failed.map (·.1.index.toNat)).Pairwise (· ≤ ·) ∧
        ∀ c ∈ failed, c.1.index.toNat < r.settings.iterations.toNat := by
  intro failed
  obtain ⟨p, returned, rfl⟩ := returned_of_completed completed
  obtain ⟨-, -, count⟩ := metrics_of_returned returned out
  have all : r.reported hook = Diagnostic.assertions (Routine.name hook) failed ++
      p.internalCheck.toList := by
    have checks := r.diagnostics_onLedger hook out
    rw [returned] at checks
    rw [reported_of_returned returned]
    exact congrArg (· ++ p.internalCheck.toList) checks
  have total : p.metrics.failures = .ofNat (failed.length + p.internalCheck.toList.length) := by
    rw [UInt64.ofNat_add, ← count]
    rfl
  have gained : out.Gained _ _ (.buffer handle) :=
    installed ▸ gained_run (installed ▸ live : out.Serves r.sink) hook elapsed
  have iterations := Progress.iterations_transcript (Routine.name hook) r.settings.keep
    r.settings.iterations.toNat
    (Progress.start hook r.coin (Delivery.mk r.sink (r.started hook out)))
    (by simpa [Progress.start] using Nat.le_of_lt r.settings.iterations.toNat_lt)
  refine ⟨p.internalCheck.toList, ?_, count, p.internalFailures_eq, Option.length_toList_le, ?_,
    total, ?_, ?_, ?_⟩
  · rw [all] at gained
    exact gained
  · intro d member
    have internal := p.internal_of_internalCheck d member
    cases d with
    | assertion => cases internal
    | internal message => exact ⟨message, rfl⟩
  · intro fits
    constructor
    · change _ = p.metrics.assertionFailures.toNat
      rw [count, UInt64.toNat_ofNat_of_lt' (Nat.lt_of_le_of_lt (Nat.le_add_right _ _) fits)]
    · change _ = p.metrics.failures.toNat
      rw [total, UInt64.toNat_ofNat_of_lt' fits]
  · exact failedChecks_sorted iterations.1
  · intro c member
    obtain ⟨e, made, same⟩ := mem_of_failedChecks member
    have bounds := iterations.2 _ (List.mem_map_of_mem made)
    rw [same] at bounds
    simpa [Progress.start] using bounds.2

/-- Checks that fail in a chain and in a chain within it, and an index addition that wraps. -/
theorem failures_reported_in_order_nested :
    let r : Rig Coin := { settings := .withIterations 3, coin := .fixed false, sink := .buffer 0 }
    let out : Outlets := { buffers := ({} : Buffers).fresh.report 0 (.internal "before") }
    let saturate : Script := ⟨"saturate", [⟨.among [1], [.store Int64.maxValue]⟩]⟩
    let hook : Hook Script :=
      .chain "outer" [.chain "inner" [.failing 2, .signCheck], .custom saturate]
    out.buffers.Live 0 ∧ ∃ s, (r.run hook {} out).ending = .completed s ∧ s.metrics.failures = 4 ∧
      ∃ own : List Diagnostic, own.length = 1 ∧
        (failedChecks (r.transcript hook out)).map (·.1) = [.ofNat 0, .ofNat 2, .ofNat 2] ∧
        (r.run hook {} out).outlets.buffers.diagnostics 0 = .internal "before" ::
          ((failedChecks (r.transcript hook out)).map (fun c => .assertion c.1 "outer" c.2) ++
            own) := by
  intro r out saturate hook
  have live : out.buffers.Live 0 := ⟨0, rfl, by decide⟩
  have counts : (r.run hook {} out).ending.summary?.map (fun s => (s.metrics.assertionFailures,
      s.metrics.internalFailures)) = some (3, 1) := by decide
  refine ⟨live, ?_⟩
  cases ending : (r.run hook {} out).ending with
  | panicked message => simp [ending, Ending.summary?] at counts
  | completed s =>
      rw [ending] at counts
      simp only [Ending.summary?, Option.map_some, Option.some.injEq, Prod.mk.injEq] at counts
      obtain ⟨own, gained, -, length, -⟩ :=
        failures_reported_in_order r hook {} out 0 rfl live s ending
      rw [counts.2] at length
      refine ⟨s, rfl, ?_, own, length.symm, by decide, gained⟩
      rw [Metrics.failures, counts.1, counts.2]
      rfl

end Rig

end HookRig
