import HookRig.Hook.Script
import HookRig.Proofs.Draws
import HookRig.Proofs.Tally

/-! # Runs that a panic stops

A panic stops a run in the middle of an iteration. What was done by then stays done, and
nothing is done any more: up to the iteration that panics the run is a completed run of
fewer iterations, without what such a run does at its end, and of the last call it has
the part before the panic.
-/

namespace HookRig

namespace Progress

variable {κ σ η : Type} [CoinSource κ] [Receiver σ] [Routine η] {name : String}
  {keep : Option Nat}

theorem transcript_of_panicked {k n : Nat} (within : k < n) {p q s : Progress κ σ η}
    {message : String} (reached : advance name keep k p = .returned q)
    (stopped : q.step name keep = .panicked s message) :
    p.transcript name keep n = p.transcript name keep k ++
      ((Routine.call q.hook).exchanges ⟨name, q.index⟩ q.bench).map (q.index, ·) := by
  obtain ⟨rest, rfl⟩ := Nat.exists_eq_add_of_lt within
  rw [Nat.add_assoc, transcript_add, reached]
  simp only [transcript, stopped, List.append_nil]

end Progress

namespace Rig

variable {κ η : Type}

def shortened (r : Rig κ) (k : Nat) : Rig κ := { r with settings.iterations := .ofNat k }

variable [CoinSource κ] [Routine η]

/-- A run whose call of iteration `k` panics: before it the loop stands at `p`, and it leaves the
hook `hook'` and the bench `c`. -/
structure StoppedIn (r : Rig κ) (hook : η) (out : Outlets) (k : Nat) (p : Progress κ Delivery η)
    (message : String) (hook' : η) (c : Bench κ Delivery) : Prop where
  within : k < r.settings.iterations.toNat
  reached : r.loop hook (Delivery.mk r.sink (r.started hook out)) k = .returned p
  stopped : p.bench.callAs (Routine.name hook) p.hook (.ofNat k) = (.panicked hook' message, c)

section

variable {r : Rig κ} {hook hook' : η} {out : Outlets} {k : Nat} {p : Progress κ Delivery η}
  {message : String} {c : Bench κ Delivery}

theorem StoppedIn.step (h : r.StoppedIn hook out k p message hook' c) :
    p.index = .ofNat k ∧ p.step (Routine.name hook) r.settings.keep =
      .panicked { p with hook := hook', bench := c } message := by
  have index : p.index = .ofNat k := Progress.index_of_advance h.reached
  have stopped := h.stopped
  rw [← index] at stopped
  refine ⟨index, ?_⟩
  simp only [Progress.step, stopped]

theorem StoppedIn.run (h : r.StoppedIn hook out k p message hook' c) (elapsed : Elapsed) :
    r.run hook elapsed out =
      { rig := { r with coin := c.coin, phase := .running }
        hook := hook'
        outlets := c.sink.outlets
        ending := .panicked message
        notes := c.notes } := by
  have ended : (r.drive hook out).outcome =
      .panicked { p with hook := hook', bench := c } message := by
    obtain ⟨rest, count⟩ := Nat.exists_eq_add_of_lt h.within
    have reached : (Progress.start hook r.coin (Delivery.mk r.sink (r.started hook out))).advance
      (Routine.name hook) r.settings.keep k = .returned p := h.reached
    unfold drive loop
    simp only
    rw [count, Nat.add_assoc, Progress.advance_add, reached]
    simp only [Progress.advance, h.step.2]
  rw [Rig.run, Drive.conclude, ended]
  rfl

theorem stoppedIn_of_panicked {elapsed : Elapsed}
    (h : (r.run hook elapsed out).ending = .panicked message) :
    ∃ k p hook' c, r.StoppedIn hook out k p message hook' c := by
  unfold run Drive.conclude at h
  split at h
  case h_1 => cases h
  case h_2 q own ended =>
    cases h
    obtain ⟨k, within, p, reached, stepped⟩ := Progress.advance_panicked ended
    obtain ⟨hook', c, called, -⟩ := Progress.step_panicked stepped
    rw [Progress.index_of_advance reached] at called
    exact ⟨k, p, hook', c, within, reached, called⟩

theorem StoppedIn.count (h : r.StoppedIn hook out k p message hook' c) :
    (r.shortened k).settings.iterations.toNat = k :=
  UInt64.toNat_ofNat_of_lt' (Nat.lt_trans h.within r.settings.iterations.toNat_lt)

/-- As many iterations as return, without the rest, are a run that completes. -/
theorem StoppedIn.returned (h : r.StoppedIn hook out k p message hook' c) :
    ∃ l : Progress κ Ledger η, (r.shortened k).onLedger hook = .returned l ∧
      l.hook = p.hook ∧ l.bench.coin = p.bench.coin ∧
      p.bench.sink =
        Receiver.receiveAll (Delivery.mk r.sink (r.started hook out)) l.bench.diagnostics := by
  let first := Delivery.mk r.sink (r.started hook out)
  have sinks : first = Receiver.receiveAll first ({} : Ledger).diagnostics := rfl
  have related : (r.loop hook first k).Related _ ((r.shortened k).loop hook ({} : Ledger) k) :=
    loop_agree (receive_follows first) rfl hook sinks k
  rw [h.reached] at related
  obtain ⟨l, returned, agree⟩ := related.of_returned
  refine ⟨l, ?_, agree.hook.symm, agree.bench.coin.symm, agree.bench.sink⟩
  rw [onLedger, h.count, returned]

theorem StoppedIn.transcript (h : r.StoppedIn hook out k p message hook' c) :
    r.transcript hook out = (r.shortened k).transcript hook out ++
      ((Routine.call p.hook).exchanges ⟨Routine.name hook, .ofNat k⟩ p.bench).map
        (.ofNat k, ·) := by
  obtain ⟨index, stopped⟩ := h.step
  -- The sinks differ in the record of the start, which no hook can see.
  have earlier : (Progress.start hook r.coin (Delivery.mk r.sink (r.started hook out))).transcript
      (Routine.name hook) r.settings.keep k = (r.shortened k).transcript hook out := by
    rw [Rig.transcript, h.count]
    exact Progress.transcript_agree (S := fun _ _ => True) (fun _ _ _ _ => trivial) _ _
      (.start hook r.coin trivial)
  rw [← earlier, ← index]
  exact Progress.transcript_of_panicked h.within h.reached stopped

end

/-- Up to a panic, nothing but failed checks is reported. -/
theorem reported_of_panicked {r : Rig κ} {hook : η} {q : Progress κ Ledger η} {message : String}
    (h : r.onLedger hook = .panicked q message) (out : Outlets) :
    r.reported hook =
      Diagnostic.assertions (Routine.name hook) (failedChecks (r.transcript hook out)) := by
  rw [← diagnostics_onLedger, reported, h]
  rfl

/-- Hooks that make the same requests are stopped in the same iteration. -/
theorem StoppedIn.of_mapped {θ : Type} [Routine θ] {f : η → θ} (carries : Routine.Carries f)
    {r : Rig κ} {hook : η} (name : Routine.name (f hook) = Routine.name hook) {out : Outlets}
    {k : Nat} {p : Progress κ Delivery θ} {message : String} {hook' : θ} {c : Bench κ Delivery}
    (h : r.StoppedIn (f hook) out k p message hook' c) :
    ∃ q hook'', r.StoppedIn hook out k q message hook'' c ∧ q.mapHook f = p ∧ f hook'' = hook' := by
  have started : r.started (f hook) out = r.started hook out := by
    rw [Rig.started, Rig.started, name]
  have reached := h.reached
  rw [started, r.loop_mapped carries name] at reached
  cases looped : r.loop hook (Delivery.mk r.sink (r.started hook out)) k with
  | panicked q own =>
      rw [looped] at reached
      cases reached
  | returned q =>
      rw [looped] at reached
      cases reached
      have stopped := h.stopped
      have called : (q.mapHook f).bench.callAs _ (q.mapHook f).hook (.ofNat k) = _ :=
        q.bench.callAs_mapped carries (Routine.name (f hook)) q.hook (.ofNat k)
      rw [called, name] at stopped
      cases ended : q.bench.callAs (Routine.name hook) q.hook (.ofNat k) with
      | mk outcome d =>
          rw [ended] at stopped
          cases outcome with
          | returned hook'' => cases stopped
          | panicked hook'' own =>
              cases stopped
              exact ⟨q, hook'', ⟨h.within, looped, ended⟩, rfl, rfl⟩

section

open Hook

variable {ε : Type} [Routine ε]

/-- The leaf that panics, and how often it and the others were called. -/
theorem StoppedIn.tallies {r : Rig κ} {hook hook' : Hook ε} {out : Outlets} {k : Nat}
    {p : Progress κ Delivery (Hook ε)} {message : String} {c : Bench κ Delivery}
    (h : r.StoppedIn hook out k p message hook' c) (elapsed : Elapsed) :
    let counted := r.run hook.tallied elapsed out
    counted.mapHook untallied = r.run hook elapsed out ∧
      counted.hook.leaves.map untallied = hook'.leaves ∧
      ∃ place, StopsAt ⟨Routine.name hook, .ofNat k⟩ place message p.hook.leaves hook'.leaves
          p.bench c ∧
        counted.hook.leaves.map tally = List.replicate (place + 1) (k + 1) ++
          List.replicate (hook'.leaves.length - (place + 1)) k := by
  intro counted
  have carries : Routine.Carries (untallied : Hook (Tallied (Hook ε)) → Hook ε) :=
    call_graft carries_hook
  have same := hook.untallied_tallied
  have name : Routine.name hook.tallied.untallied = Routine.name hook.tallied := by
    rw [same]
    exact hook.name_tallied.symm
  refine ⟨?_, ?_⟩
  · rw [← r.run_mapped carries name elapsed out, same]
  · rw [← same] at h
    obtain ⟨q, hook'', stopped, rfl, rfl⟩ := StoppedIn.of_mapped carries name h
    -- The run with counts stops in the same place, so its leaves show how often each was called.
    have last : counted.hook = hook'' := by
      simp only [counted]
      rw [stopped.run]
    have before := counted_of_loop stopped.reached
    have called := Faithful.run_callAll call_leaves ⟨Routine.name hook.tallied, .ofNat k⟩ q.hook
      q.bench
    rw [stopped.stopped] at called
    obtain ⟨place, stops⟩ := stopsAt_of_panicked called
    obtain ⟨called, spared, split, length, more, equal⟩ := counted_of_stopsAt stops before
    have all : ∀ leaf ∈ hook''.leaves, ∃ n, leaf.Counted n := by
      rw [split, List.forall_mem_append]
      exact ⟨fun leaf member => ⟨_, more leaf member⟩, fun leaf member => ⟨_, equal leaf member⟩⟩
    have leaves' := leaves_untallied all
    have leaves := leaves_untallied fun leaf member => ⟨k, before leaf member⟩
    rw [last]
    refine ⟨leaves'.symm, place, ?_, ?_⟩
    · have stops' := stops.graft carries_hook
      rw [show Routine.name hook.tallied = Routine.name hook from hook.name_tallied] at stops'
      rw [leaves']
      change StopsAt _ place message q.hook.untallied.leaves _ q.bench c
      rw [leaves]
      exact stops'
    · have rest : hook''.leaves.length - (place + 1) = spared.length := by
        rw [split, List.length_append, length, Nat.add_sub_cancel_left]
      rw [leaves', List.length_map, rest, split, List.map_append, tally_of_counted more,
        tally_of_counted equal, length]

/-- A run that a panic stops is a completed run of the iterations before it and a part of one call.
Its sink gains the checks that failed up to there, and its journal no record of an end. -/
theorem panic_leaves_exact_prefix (r : Rig κ) (hook : Hook ε) (elapsed elapsed' : Elapsed)
    (out : Outlets) (message : String)
    (panicked : (r.run hook elapsed out).ending = .panicked message) :
    let name := Routine.name hook
    let after := r.run hook elapsed out
    let counted := r.run hook.tallied elapsed out
    let said := r.transcript hook out
    let failures := fun exchanges => Diagnostic.assertions name (failedChecks exchanges)
    ∃ k p c, r.StoppedIn hook out k p message after.hook c ∧
      (let done := (r.shortened k).run hook elapsed' out
        let earlier := (r.shortened k).transcript hook out
        said = earlier ++ ((Routine.call p.hook).exchanges ⟨name, .ofNat k⟩ p.bench).map
          (.ofNat k, ·) ∧
        done.hook = p.hook ∧ done.rig.coin = p.bench.coin ∧
        ∃ s own, done.ending = .completed s ∧ own.length = s.metrics.internalFailures.toNat ∧
          (∀ d ∈ own, d.isAssertion = false) ∧
          (out.Serves r.sink →
            out.Gained p.bench.sink.outlets (failures earlier) r.sink ∧
            out.Gained done.outlets (failures earlier ++ own) r.sink)) ∧
      (out.Serves r.sink → out.Gained after.outlets (failures said) r.sink) ∧
      flips (drawnSides said).length r.coin = (drawnSides said, after.rig.coin) ∧
      (∃ told, told = r.sink.records (failures said) ∧ (∀ e ∈ told, e.level = .warn) ∧
        after.outlets.journal.records =
          out.journal.records ++ out.journal.threshold.keeps (r.startRecord name :: told)) ∧
      after.rig.phase = .running ∧ counted.mapHook untallied = after ∧
      counted.hook.leaves.map untallied = after.hook.leaves ∧
      ∃ place, StopsAt ⟨name, .ofNat k⟩ place message p.hook.leaves after.hook.leaves p.bench c ∧
        counted.hook.leaves.map tally = List.replicate (place + 1) (k + 1) ++
          List.replicate (after.hook.leaves.length - (place + 1)) k := by
  intro name after counted said failures
  obtain ⟨k, p, hook', c, stopped⟩ := stoppedIn_of_panicked panicked
  have ran : after = _ := stopped.run elapsed
  have left : hook' = after.hook := by rw [ran]
  subst left
  obtain ⟨q, ledger⟩ := panicked_of_ending panicked
  have reported : r.reported hook = failures said := reported_of_panicked ledger out
  -- The shorter run ends where the stopped one makes its last call.
  obtain ⟨l, returned, hooks, coin, sink⟩ := stopped.returned
  have short := run_of_returned returned elapsed' out
  have before : l.bench.diagnostics = failures ((r.shortened k).transcript hook out) := by
    have told := (r.shortened k).diagnostics_onLedger hook out
    rw [returned] at told
    exact told
  obtain ⟨same, leaves⟩ := stopped.tallies elapsed
  refine ⟨k, p, c, stopped, ⟨stopped.transcript, ?_, ?_, ?_⟩, ?_, r.flips_run hook elapsed out,
    ⟨_, rfl, r.sink.level_records _, ?_⟩, ?_, same, leaves⟩
  · rw [short, hooks]
  · rw [short, coin]
  · refine ⟨_, l.internalCheck.toList, by rw [short], l.internalFailures_eq.symm,
      l.internal_of_internalCheck, ?_⟩
    intro serves
    constructor
    · rw [sink, before]
      exact gained_started serves hook _
    · rw [← before, ← reported_of_returned returned]
      exact gained_run (r := r.shortened k) serves hook elapsed'
  · intro serves
    rw [← reported]
    exact gained_run serves hook elapsed
  · rw [← reported, ← records_delivered]
    simp only [after]
    rw [run_of_panicked ledger]
  · rw [ran]

/-- A panic in an inner chain, in the third of four iterations and after a check that fails in the
same call. The index addition before it wrapped, of which only the shorter run tells. -/
theorem panic_leaves_exact_prefix_wrapped :
    let r : Rig ScriptedCoin :=
      { settings := .withIterations 4, coin := { script := #[true, false] }, sink := .buffer 0 }
    let out : Outlets := { buffers := ({} : Buffers).fresh.report 0 (.internal "before") }
    let saturate : Script := ⟨"saturate", [⟨.among [1], [.store Int64.maxValue]⟩]⟩
    let stop : Script := ⟨"stop", [⟨.among [2], [.draw, .check false "late", .panic "stopped"]⟩]⟩
    let hook : Hook Script :=
      .chain "outer" [.nondetAntiOp, .chain "inner" [.custom saturate, .custom stop], .failing 2,
        .counting 0]
    ∃ message, (r.run hook {} out).ending = .panicked message ∧
      (r.run hook.tallied {} out).hook.leaves.map tally = [3, 3, 3, 2, 2] ∧
      (∃ p c, r.StoppedIn hook out 2 p message (r.run hook {} out).hook c) ∧
      (∃ own, own.length = 1 ∧ out.Gained ((r.shortened 2).run hook {} out).outlets
        (Diagnostic.assertions "outer" [(.ofNat 0, "deliberate failure")] ++ own) (.buffer 0)) ∧
      out.Gained (r.run hook {} out).outlets
        (Diagnostic.assertions "outer" [(.ofNat 0, "deliberate failure"), (.ofNat 2, "late")])
        (.buffer 0) ∧
      (r.run hook {} out).rig.coin.draws = 4 := by
  intro r out saturate stop hook
  have tallies : (r.run hook.tallied {} out).hook.leaves.map tally = [3, 3, 3, 2, 2] := by
    decide +kernel
  have stops : (r.run hook {} out).ending.summary?.isNone = true := by decide +kernel
  have wraps : ((r.shortened 2).run hook {} out).ending.summary?.map
      (·.metrics.internalFailures.toNat) = some 1 := by decide +kernel
  have draws : (r.run hook {} out).rig.coin.draws = 4 := by decide +kernel
  have failed : failedChecks (r.transcript hook out) =
      [(.ofNat 0, "deliberate failure"), (.ofNat 2, "late")] := by decide +kernel
  have failed' : failedChecks ((r.shortened 2).transcript hook out) =
      [(.ofNat 0, "deliberate failure")] := by decide +kernel
  have serves : out.Serves r.sink := ⟨0, rfl, by decide⟩
  cases ended : (r.run hook {} out).ending with
  | completed s =>
      rw [ended] at stops
      cases stops
  | panicked message =>
      obtain ⟨k, p, c, stopped, ⟨-, -, -, s, own, done, length, -, before⟩, after, -, -, -, -,
        -, place, -, counts⟩ := panic_leaves_exact_prefix r hook {} {} out message ended
      -- The first leaf was called in each of the iterations up to the panic.
      have first := congrArg List.head? counts
      rw [tallies, List.replicate_succ, List.cons_append, List.head?_cons, List.head?_cons] at first
      obtain rfl : k = 2 := (Nat.succ.inj (Option.some.inj first)).symm
      rw [done] at wraps
      have gained := (before serves).2
      have gained' := after serves
      simp only [failed] at gained'
      simp only [failed'] at gained
      exact ⟨message, rfl, tallies, ⟨p, c, stopped⟩,
        ⟨own, length.trans (Option.some.inj wraps), gained⟩, gained', draws⟩

end

end Rig

end HookRig
