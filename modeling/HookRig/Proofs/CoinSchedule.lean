import HookRig.Hook.Script
import HookRig.Proofs.Consecutive
import HookRig.Proofs.Restraint
import HookRig.Proofs.SameTurns
import HookRig.Proofs.StockRuns

/-! # A scripted coin as a schedule

A hook that negates when the coin shows one does, with a scripted coin, what a hook with a
schedule does. The coin goes on where the run before left it while the indices start again, so the
schedule of a run depends on how many came before it and on the length of the script. The position
of the coin has 64 bits: once it comes round to zero the script starts again.
-/

namespace HookRig

/-! ## Schedules and scripts -/

/-- The indices below `n` at which a script shows one, when it is repeated and read from the place
`start` on. -/
def Schedule.ofScript (script : List Bool) (start n : Nat) : Schedule :=
  .among (((List.range n).filter fun i =>
    script[(start + i) % script.length]? = some true).map UInt64.ofNat)

theorem Schedule.includes_ofScript (script : List Bool) (start : Nat) {n i : Nat}
    (small : n < 2 ^ 63) (h : i < n) :
    (ofScript script start n).includes (.ofNat i) = true ↔
      script[(start + i) % script.length]? = some true := by
  unfold ofScript includes
  simp only [List.contains_iff_mem, List.mem_map, List.mem_filter, List.mem_range,
    decide_eq_true_eq]
  constructor
  · rintro ⟨j, ⟨below, shown⟩, same⟩
    have eq : j = i :=
      Iteration.ofNat_injective (by omega) (by omega) (congrArg Iteration.mk same)
    rwa [← eq]
  · intro shown
    exact ⟨i, ⟨h, shown⟩, rfl⟩

namespace ScriptedCoin

theorem flip_iff (c : ScriptedCoin) :
    (CoinSource.flip c).1 = true ↔ c.script[c.draws.toNat % c.script.size]? = some true := by
  change c.script[c.draws.toNat % c.script.size]?.getD false = true ↔ _
  cases c.script[c.draws.toNat % c.script.size]? with
  | none => simp
  | some side => simp

/-- A coin that was made from numbers shows one where they are not zero. -/
theorem shows_ofInts (ints : List Int) {m j : Nat} (fits : m ≤ 2 ^ 64) (h : j < m) :
    (flips m (ofInts ints)).1[j]? = some true ↔ ∃ v, ints[j % ints.length]? = some v ∧ v ≠ 0 := by
  have place : (0 + UInt64.ofNat j).toNat = j := by
    rw [UInt64.zero_add, UInt64.toNat_ofNat_of_lt' (Nat.lt_of_lt_of_le h fits)]
  rw [HookRig.getElem?_flips h, Option.some_inj, flip_iff, flips_eq]
  simp only [ofInts, place]
  simp

end ScriptedCoin

/-! ## Runs on a scripted coin -/

namespace Rig

section

variable {ε : Type} [Routine ε] {r : Rig ScriptedCoin} {script : List Bool}

/-- Where a run negates is read off the script, from the position of the coin on. -/
theorem drawnOnes_scripted {start : UInt64}
    (coin : r.coin = { script := script.toArray, draws := start }) :
    r.drawnOnes = turnsOf (fun i => script[(start + .ofNat i).toNat % script.length]? = some true)
      r.settings.iterations.toNat := by
  rw [← turnsOf_flips]
  refine Finset.filter_congr fun i member => ?_
  rw [ScriptedCoin.flip_iff, ScriptedCoin.flips_eq, coin, decide_eq_true_eq]
  simp only [List.size_toArray, List.getElem?_toArray]

/-- As long as the position does not come round to zero, this is a schedule. -/
private theorem turnsOf_ofScript {start : Nat} (valid : r.settings.problem? = none)
    (fits : start + r.settings.iterations.toNat ≤ 2 ^ 64)
    (coin : r.coin = { script := script.toArray, draws := .ofNat start }) :
    r.drawnOnes = turnsOf (fun i =>
      (Schedule.ofScript script start r.settings.iterations.toNat).includes (.ofNat i))
        r.settings.iterations.toNat := by
  rw [drawnOnes_scripted coin]
  refine Finset.filter_congr fun i member => ?_
  have below : i < r.settings.iterations.toNat := Finset.mem_range.mp member
  have place : (UInt64.ofNat start + .ofNat i).toNat = start + i := by
    rw [← UInt64.ofNat_add, UInt64.toNat_ofNat_of_lt' (show start + i < 2 ^ 64 by omega)]
  rw [Schedule.includes_ofScript script start (Settings.iterations_lt valid) below]
  simp only [place, decide_eq_true_eq]

theorem nondetAntiOp_like_scheduled {κ : Type} [CoinSource κ] {s : Rig κ} {start : Nat}
    (valid : r.settings.problem? = none) (settings : s.settings = r.settings)
    (fits : start + r.settings.iterations.toNat ≤ 2 ^ 64)
    (coin : r.coin = { script := script.toArray, draws := .ofNat start })
    (elapsed elapsed' : Elapsed) :
    ∃ p q, r.onLedger (Hook.nondetAntiOp : Hook ε) = .returned p ∧
      s.onLedger (Hook.scheduled (.ofScript script start r.settings.iterations.toNat) : Hook ε) =
        .returned q ∧
      (r.summary p elapsed).SameWork (s.summary q elapsed') := by
  have drawn := negates_nondetAntiOp (ε := ε) valid elapsed {}
  have scheduled := negates_scheduled (ε := ε) (settings ▸ valid)
    (.ofScript script start r.settings.iterations.toNat) elapsed' {}
  rw [turnsOf_ofScript valid fits coin] at drawn
  rw [settings] at scheduled
  rcases sameWork_of_negates valid settings drawn scheduled with
    ⟨p, q, returned, returned', same, -⟩
  exact ⟨p, q, returned, returned', same⟩

/-- Each run before has read as much of the script as it has iterations. -/
theorem coin_afterRuns_scripted (coin : r.coin = { script := script.toArray })
    (times : Nat → Elapsed) (outs : Nat → Outlets) (k : Nat) :
    (r.afterRuns (fun _ => (Hook.nondetAntiOp : Hook ε)) times outs k).coin =
      { script := script.toArray, draws := .ofNat (k * r.settings.iterations.toNat) } := by
  rw [coin_afterRuns (fun s _ same => by rw [coin_run_nondetAntiOp, same]),
    ScriptedCoin.flips_eq, coin, UInt64.zero_add]

end

/-- Where the coin never shows one, drawing it is all that sets the hook apart from one that does
nothing. -/
theorem nondetAntiOp_like_noop {κ κ' ε : Type} [CoinSource κ] [CoinSource κ'] [Routine ε]
    {r : Rig κ} {s : Rig κ'} (valid : r.settings.problem? = none)
    (settings : s.settings = r.settings) (never : r.drawnOnes = ∅) (elapsed elapsed' : Elapsed) :
    ∃ p q, r.onLedger (Hook.nondetAntiOp : Hook ε) = .returned p ∧
      s.onLedger (Hook.noop : Hook ε) = .returned q ∧
      r.summary p elapsed = { s.summary q elapsed' with
        elapsed, metrics := { q.metrics with draws := r.settings.iterations } } ∧
      q.metrics.draws = 0 ∧
      r.reported (Hook.nondetAntiOp : Hook ε) = s.reported (Hook.noop : Hook ε) := by
  have drawn : r.Negates (Hook.nondetAntiOp : Hook ε) elapsed {} ∅ :=
    never ▸ negates_nondetAntiOp valid elapsed {}
  have idle : s.Negates (Hook.noop : Hook ε) elapsed' {} ∅ :=
    negates_stock (settings ▸ valid) .noop elapsed' {}
  rcases sameWork_of_negates valid settings drawn idle with
    ⟨p, q, returned, returned', same, checks⟩
  have silent := silent_of_forgoes (Hook.forgoes_nondetAntiOp rfl rfl) returned
  have silent' := silent_of_forgoes Hook.forgoes_noop returned'
  have draws : p.bench.counters.draws = r.settings.iterations := by
    rcases tosses_of_run (ε := ε) r with ⟨p', tossed, tosses, calls⟩
    cases returned.symm.trans tossed
    rw [tosses.draws, calls, UInt64.ofNat_toNat]
  refine ⟨p, q, returned, returned', ?_, (unflipped_of_forgoes Hook.forgoes_noop returned').2, ?_⟩
  · have sum : p.bench.sum = q.bench.sum := same.sum
    have calls : UInt64.ofNat p.calls = .ofNat q.calls := same.calls
    have negations : p.bench.counters.negations = q.bench.counters.negations := same.negations
    have trace : r.settings.keep.map (fun _ => p.trace) = s.settings.keep.map (fun _ => q.trace) :=
      same.trace
    have metrics : p.metrics = { q.metrics with draws := r.settings.iterations } := by
      simp only [Progress.metrics, calls, negations, draws, silent.2, silent'.2, checks]
    unfold summary
    rw [sum, metrics, trace, settings]
  · rw [reported_of_returned returned, reported_of_returned returned', silent.1, silent'.1, checks]

/-- A scripted coin is a schedule, as long as its position does not come round to zero: of runs in a
row, each negates where the script shows one, read on from where the runs before have left it. -/
theorem scripted_coin_is_schedule {κ ε : Type} [Routine ε] (r : Rig κ)
    (valid : r.settings.problem? = none) (script : List Bool) (times : Nat → Elapsed)
    (outs : Nat → Outlets) (k : Nat) :
    let n := r.settings.iterations.toNat
    let coin : ScriptedCoin := { script := script.toArray }
    let drawing (_ : Nat) : Hook ε := .nondetAntiOp
    let drawn := (r.withCoin coin).nthRun drawing times outs k
    ∃ a, drawn.ending = .completed a ∧
      ((k + 1) * n ≤ 2 ^ 64 →
        ∀ (κ' : Type) [CoinSource κ'] (q : Rig κ') (elapsed : Elapsed) (out : Outlets),
          q.settings = r.settings →
            let scheduled : Hook ε := .scheduled (.ofScript script (k * n) n)
            ∃ b, (q.run scheduled elapsed out).ending = .completed b ∧ a.SameWork b) ∧
      (script = [] →
        ∀ (κ' : Type) [CoinSource κ'] (q : Rig κ') (elapsed : Elapsed) (out : Outlets),
          q.settings = r.settings →
            let idle := q.run (Hook.noop : Hook ε) elapsed out
            ∃ b ds, idle.ending = .completed b ∧ b.metrics.draws = 0 ∧
              a = { b with
                elapsed := times k, metrics := { b.metrics with draws := r.settings.iterations } } ∧
              ((outs k).Serves r.sink → (outs k).Gained drawn.outlets ds r.sink) ∧
              (out.Serves q.sink → out.Gained idle.outlets ds q.sink)) ∧
      ∀ ints : List Int, ints.map (· != 0) = script →
        ScriptedCoin.ofInts ints = coin ∧
          ∀ m ≤ 2 ^ 64, ∀ j < m, ((flips m (ScriptedCoin.ofInts ints)).1[j]? = some true ↔
            ∃ v, ints[j % ints.length]? = some v ∧ v ≠ 0) := by
  intro n coin drawing drawn
  let s := (r.withCoin coin).afterRuns drawing times outs k
  rcases (r.withCoin coin).settings_afterRuns drawing times outs k with ⟨kept, sink⟩
  have settings : s.settings = r.settings := kept
  have place : s.coin = { script := script.toArray, draws := .ofNat (k * n) } :=
    coin_afterRuns_scripted rfl times outs k
  have valid' : s.settings.problem? = none := settings ▸ valid
  rcases tosses_of_run (ε := ε) s with ⟨p, returned, -, -⟩
  refine ⟨s.summary p (times k), completed_of_returned returned (times k) (outs k), ?_, ?_, ?_⟩
  · intro fits κ' _ q elapsed out same scheduled
    have fits' : k * n + s.settings.iterations.toNat ≤ 2 ^ 64 := by
      rw [settings, ← Nat.succ_mul]
      exact fits
    rcases nondetAntiOp_like_scheduled (ε := ε) valid' (same.trans settings.symm) fits' place
      (times k) elapsed with ⟨p', b, returned', ended, work⟩
    cases returned.symm.trans returned'
    rw [settings] at ended
    exact ⟨_, completed_of_returned ended elapsed out, work⟩
  · rintro rfl κ' _ q elapsed out same idle
    have never : s.drawnOnes = ∅ := by
      rw [drawnOnes_scripted place]
      simp [turnsOf]
    rcases nondetAntiOp_like_noop (ε := ε) valid' (same.trans settings.symm) never (times k)
      elapsed with ⟨p', b, returned', ended, equal, draws, told⟩
    cases returned.symm.trans returned'
    refine ⟨q.summary b elapsed, q.reported (Hook.noop : Hook ε),
      completed_of_returned ended elapsed out, draws, ?_, ?_, ?_⟩
    · rw [equal, settings]
      rfl
    · intro serves
      have sink' : s.sink = r.sink := sink
      rw [← sink'] at serves ⊢
      exact told ▸ gained_run serves (Hook.nondetAntiOp : Hook ε) (times k)
    · intro serves
      exact gained_run serves (Hook.noop : Hook ε) elapsed
  · intro ints same
    constructor
    · rw [ScriptedCoin.ofInts, same]
    · intro m fits j below
      exact ScriptedCoin.shows_ofInts ints fits below

/-- The second of two runs of four iterations, with a script of three. -/
theorem scripted_coin_is_schedule_second_of_two :
    let settings : Settings := { iterations := 4, recordTrace := true, traceLimit := 3 }
    let r : Rig Coin := { settings, coin := .fixed false, sink := .buffer 0 }
    let script : List Bool := [true, false, true]
    let drawing (_ : Nat) : Hook Script := .nondetAntiOp
    let times (_ : Nat) : Elapsed := {}
    let outs (_ : Nat) : Outlets := { buffers := ({} : Buffers).fresh }
    settings.problem? = none ∧ ScriptedCoin.ofInts [7, 0, -1] = { script := script.toArray } ∧
      (∃ a b, ((r.withCoin (ScriptedCoin.ofInts [7, 0, -1])).nthRun drawing times outs 1).ending =
          .completed a ∧
        (r.run (Hook.scheduled (.among [1, 2]) : Hook Script) {} {}).ending = .completed b ∧
        a.SameWork b) ∧
      ∃ a b, ((r.withCoin (ScriptedCoin.ofInts [])).nthRun drawing times outs 1).ending =
          .completed a ∧
        (r.run (Hook.noop : Hook Script) {} {}).ending = .completed b ∧
        a = { b with elapsed := {}, metrics := { b.metrics with draws := 4 } } := by
  intro settings r script drawing times outs
  have valid : settings.problem? = none := by decide +kernel
  have schedule : Schedule.ofScript script (1 * 4) 4 = .among [1, 2] := by decide
  rcases scripted_coin_is_schedule (ε := Script) r valid script times outs 1 with
    ⟨a, ended, work, -, same⟩
  rcases scripted_coin_is_schedule (ε := Script) r valid [] times outs 1 with
    ⟨a', ended', -, empty, -⟩
  rcases work (by decide) Coin r {} {} rfl with ⟨b, completed, samework⟩
  rcases empty rfl Coin r {} {} rfl with ⟨b', -, completed', -, equal, -⟩
  refine ⟨valid, (same [7, 0, -1] rfl).1, ⟨a, b, ended, ?_, samework⟩, a', b', ended', completed',
    equal⟩
  rw [← schedule]
  exact completed

/-! ## Past the range of the position -/

private theorem third_of_negatedOn {steps : List TraceStep} (linked : TraceStep.Linked steps)
    {turns : Finset ℕ} (negated : TraceStep.NegatedOn turns steps) (bound : 2 < steps.length) :
    steps[2].afterHook = if 2 ∈ turns then -1 else 1 := by
  have zero : steps[0].afterAdd = 0 := by
    rw [linked.added 0 (by omega), negated 0 (by omega), linked.first (by omega),
      Int64.neg_zero, ite_self]
    rfl
  have one : steps[1].afterAdd = 1 := by
    rw [linked.added 1 (by omega), negated 1 (by omega), linked.next 0 (by omega), zero,
      Int64.neg_zero, ite_self]
    rfl
  rw [negated 2 bound, linked.next 1 bound, one]

private theorem traces_differ {κ κ' η θ : Type} [CoinSource κ] [CoinSource κ'] [Routine η]
    [Routine θ]
    {r : Rig κ} {s : Rig κ'} {hook : η} {other : θ} {elapsed elapsed' : Elapsed}
    {out out' : Outlets} {turns turns' : Finset ℕ} (settings : s.settings = r.settings)
    (recorded : r.settings.keep = some 3) (third : 2 < r.settings.iterations.toNat)
    (h : r.Negates hook elapsed out turns) (h' : s.Negates other elapsed' out' turns')
    (only : 2 ∈ turns) (not : 2 ∉ turns') :
    ∃ a b, (r.run hook elapsed out).ending = .completed a ∧
      (s.run other elapsed' out').ending = .completed b ∧ a.trace ≠ b.trace := by
  rcases h with ⟨negated, a, ended, -⟩
  rcases h' with ⟨negated', b, ended', -⟩
  refine ⟨a, b, ended, ended', ?_⟩
  rcases returned_of_completed ended with ⟨p, returned, rfl⟩
  rcases returned_of_completed ended' with ⟨q, returned', rfl⟩
  have bound : 2 < (r.history hook).length := (history_at returned).1 ▸ third
  have bound' : 2 < (s.history other).length := by
    rw [(history_at returned').1, settings]
    exact third
  intro same
  rw [trace_of_returned returned, trace_of_returned returned', settings, recorded,
    Option.map_some, Option.map_some, Option.some_inj] at same
  have entries := congrArg (fun steps => steps[2]?.map (·.afterHook)) same
  simp only [List.getElem?_take_of_lt (show 2 < 3 by decide), List.getElem?_eq_getElem bound,
    List.getElem?_eq_getElem bound', Option.map_some, Option.some_inj,
    third_of_negatedOn (r.linked_history hook) negated bound,
    third_of_negatedOn (s.linked_history other) negated' bound', if_pos only, if_neg not] at entries
  cases entries

/-- Where the coin shows a one that the repeated script does not, the run leaves the schedule. -/
private theorem leaves_schedule {κ ε : Type} [CoinSource κ] [Routine ε] {r : Rig κ}
    (valid : r.settings.problem? = none) (recorded : r.settings.keep = some 3)
    (third : 2 < r.settings.iterations.toNat) {script : List Bool} {k : Nat}
    (shown : script[(UInt64.ofNat (k * r.settings.iterations.toNat) + .ofNat 2).toNat %
      script.length]? = some true)
    (due : script[(k * r.settings.iterations.toNat + 2) % script.length]? ≠ some true)
    (times : Nat → Elapsed) (outs : Nat → Outlets) (elapsed : Elapsed) (out : Outlets) :
    ∃ a b, ((r.withCoin ({ script := script.toArray } : ScriptedCoin)).nthRun
        (fun _ => (Hook.nondetAntiOp : Hook ε)) times outs k).ending = .completed a ∧
      (r.run (Hook.scheduled (.ofScript script (k * r.settings.iterations.toNat)
        r.settings.iterations.toNat) : Hook ε) elapsed out).ending = .completed b ∧
      a.trace ≠ b.trace := by
  let first : Rig ScriptedCoin := r.withCoin { script := script.toArray }
  let s := first.afterRuns (fun _ => (Hook.nondetAntiOp : Hook ε)) times outs k
  have kept : s.settings = r.settings := (first.settings_afterRuns _ times outs k).1
  have place : s.coin =
      { script := script.toArray, draws := .ofNat (k * r.settings.iterations.toNat) } :=
    coin_afterRuns_scripted rfl times outs k
  have drawn := negates_nondetAntiOp (ε := ε) (r := s) (kept ▸ valid) (times k) (outs k)
  have listed := negates_scheduled (ε := ε) valid
    (.ofScript script (k * r.settings.iterations.toNat) r.settings.iterations.toNat) elapsed out
  rw [drawnOnes_scripted place, kept] at drawn
  -- Each run negates on a set that is known, and only one of the two sets has the third iteration.
  refine traces_differ kept.symm (kept ▸ recorded) (kept ▸ third) drawn listed ?_ ?_
  · rw [mem_turnsOf third, decide_eq_true_eq]
    exact shown
  · rw [mem_turnsOf third,
      Schedule.includes_ofScript script _ (Settings.iterations_lt valid) third]
    exact due

/-- Two runs of `2 ^ 63 - 1` iterations leave the position two short of zero, so the third run reads
the start of the script in its third iteration, where the repeated script goes on. -/
theorem scripted_coin_is_schedule_coming_round :
    let settings : Settings :=
      { iterations := 9223372036854775807, recordTrace := true, traceLimit := 3 }
    let r : Rig Coin := { settings, coin := .fixed false, sink := .buffer 0 }
    let script : List Bool := [true, false, false]
    let coin : ScriptedCoin := { script := script.toArray }
    let drawing (_ : Nat) : Hook Script := .nondetAntiOp
    let scheduled : Hook Script := .scheduled
      (.ofScript script (2 * r.settings.iterations.toNat) r.settings.iterations.toNat)
    settings.problem? = none ∧
      ∃ a b, ((r.withCoin coin).nthRun drawing (fun _ => {}) (fun _ => {}) 2).ending =
          .completed a ∧
        (r.run scheduled {} {}).ending = .completed b ∧ a.trace ≠ b.trace := by
  intro settings r script coin drawing scheduled
  have valid : settings.problem? = none := by decide +kernel
  have third : 2 < r.settings.iterations.toNat := by decide +kernel
  have shown : script[(UInt64.ofNat (2 * r.settings.iterations.toNat) + .ofNat 2).toNat %
      script.length]? = some true := by decide +kernel
  have due : script[(2 * r.settings.iterations.toNat + 2) % script.length]? ≠ some true := by
    decide +kernel
  exact ⟨valid,
    leaves_schedule (r := r) valid rfl third shown due (fun _ => {}) (fun _ => {}) {} {}⟩

end Rig

end HookRig
