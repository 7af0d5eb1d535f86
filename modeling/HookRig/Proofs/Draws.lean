import HookRig.Hook.Script
import HookRig.Proofs.Transcript

/-! # What is drawn from the coin

The coin of a rig is flipped when a hook draws from it, and at no other time. What the hooks
of a run are shown are the next sides of the coin, in order, and the run counts them. Later
runs go on where earlier ones stopped.
-/

namespace HookRig

theorem flips_add {κ : Type} [CoinSource κ] (m n : Nat) (c : κ) :
    flips (m + n) c =
      ((flips m c).1 ++ (flips n (flips m c).2).1, (flips n (flips m c).2).2) := by
  induction n with
  | zero => simp [flips]
  | succ n ih => rw [← Nat.add_assoc, flips_succ, ih, flips_succ, List.append_assoc]

namespace ScriptedCoin

theorem flips_eq (n : Nat) (c : ScriptedCoin) :
    (flips n c).2 = { c with draws := c.draws + .ofNat n } := by
  induction n with
  | zero =>
      change c = { c with draws := c.draws + 0 }
      rw [UInt64.add_zero]
  | succ n ih =>
      rw [flips_succ, ih, UInt64.ofNat_add, ← UInt64.add_assoc]
      rfl

/-- A script that is not empty is shown over and over, and from its start once the position comes
round to zero. -/
theorem getElem?_flips {c : ScriptedCoin} (nonempty : 0 < c.script.size) {n j : Nat} (h : j < n) :
    (flips n c).1[j]? = c.script[(c.draws + .ofNat j).toNat % c.script.size]? := by
  have bound : (c.draws + .ofNat j).toNat % c.script.size < c.script.size := Nat.mod_lt _ nonempty
  rw [HookRig.getElem?_flips h, flips_eq]
  simp only [CoinSource.flip, flip, Array.getElem?_eq_getElem bound, Option.getD_some]

end ScriptedCoin

/-- Only draws flip the coin, and each flips it once. -/
theorem Bench.tracked_flips {κ σ : Type} [CoinSource κ] [Receiver σ] (name : String) :
    Tracked name fun es (b c : Bench κ σ) =>
      flips (drawnSides es).length b.coin = (drawnSides es, c.coin) where
  nothing b := rfl
  addIndex b i := rfl
  answer i b r := by
    cases r with
    | check holds message => cases holds <;> rfl
    | draw | iteration | sum | counters | store | antiOp | note => rfl
  trans first rest := by rw [drawnSides_append, List.length_append, flips_add, first, rest]

namespace Rig

variable {κ η : Type} [CoinSource κ] [Routine η]

theorem coin_run (r : Rig κ) (hook : η) (elapsed : Elapsed) (out : Outlets) :
    (r.run hook elapsed out).rig.coin = (r.onLedger hook).state.bench.coin := by
  cases ledger : r.onLedger hook with
  | returned p => rw [run_of_returned ledger]; rfl
  | panicked p message => rw [run_of_panicked ledger]; rfl

/-- However a run ends, its coin was flipped once for each draw of its hook. -/
theorem flips_run (r : Rig κ) (hook : η) (elapsed : Elapsed) (out : Outlets) :
    let sides := drawnSides (r.transcript hook out)
    flips sides.length r.coin = (sides, (r.run hook elapsed out).rig.coin) := by
  rw [coin_run, r.transcript_eq_onLedger hook out]
  exact Progress.tracked_advance (Bench.tracked_flips _) r.settings.keep _
    (.start hook r.coin ({} : Ledger))

/-- What a rig can become as long as it is not given another coin, with what each run on the way
drew and how it ended. Hooks of any kind may be run, and any sink may be put in. -/
inductive Ran (first : Rig κ) : Rig κ → List (List Bool × Ending) → Prop
  | new : Ran first first []
  | run {r : Rig κ} {log : List (List Bool × Ending)} (earlier : Ran first r log) {η : Type}
      [Routine η] (hook : η) (elapsed : Elapsed) (out : Outlets) :
      Ran first (r.run hook elapsed out).rig
        (log ++ [(drawnSides (r.transcript hook out), (r.run hook elapsed out).ending)])
  | withSink {r : Rig κ} {log : List (List Bool × Ending)} (earlier : Ran first r log)
      (sink : Sink) : Ran first (r.withSink sink) log

def totalDraws : List (List Bool × Ending) → Nat
  | [] => 0
  | (_, .completed s) :: rest => s.metrics.draws.toNat + totalDraws rest
  | (_, .panicked _) :: rest => totalDraws rest

theorem Ran.flips {first r : Rig κ} {log : List (List Bool × Ending)} (ran : first.Ran r log) :
    flips (log.flatMap (·.1)).length first.coin = (log.flatMap (·.1), r.coin) := by
  induction ran with
  | new => rfl
  | withSink earlier sink ih => exact ih
  | @run r log earlier η _ hook elapsed out ih =>
      have next := r.flips_run hook elapsed out
      simp only [List.flatMap_append, List.flatMap_singleton, List.length_append]
      rw [flips_add, ih, next]

theorem Ran.draws {first r : Rig κ} {log : List (List Bool × Ending)} (ran : first.Ran r log) :
    ∀ e ∈ log, ∀ s, e.2 = .completed s → s.metrics.draws = .ofNat e.1.length := by
  induction ran with
  | new => simp
  | withSink earlier sink ih => exact ih
  | run earlier hook elapsed out ih =>
      rw [List.forall_mem_append, List.forall_mem_singleton]
      refine ⟨ih, fun s completed => ?_⟩
      obtain ⟨p, returned, rfl⟩ := returned_of_completed completed
      exact (metrics_of_returned returned out).2.1

theorem length_of_completed {log : List (List Bool × Ending)}
    (draws : ∀ e ∈ log, ∀ s, e.2 = .completed s → s.metrics.draws = .ofNat e.1.length)
    (completed : ∀ e ∈ log, e.1.length < UInt64.size ∧ ∃ s, e.2 = .completed s) :
    (log.flatMap (·.1)).length = totalDraws log := by
  induction log with
  | nil => rfl
  | cons e rest ih =>
      rw [List.forall_mem_cons] at draws completed
      obtain ⟨sides, ending⟩ := e
      obtain ⟨fits, s, rfl⟩ := completed.1
      rw [List.flatMap_cons, List.length_append, ih draws.2 completed.2, totalDraws,
        draws.1 s rfl, UInt64.toNat_ofNat_of_lt' fits]

theorem length_le_of_mem {log : List (List Bool × Ending)} {e : List Bool × Ending}
    (member : e ∈ log) : e.1.length ≤ (log.flatMap (·.1)).length := by
  obtain ⟨before, after, rfl⟩ := List.append_of_mem member
  simp only [List.flatMap_append, List.flatMap_cons, List.length_append]
  omega

/-- The coin of a rig is flipped by the draws of its hooks only, and runs that follow each other
draw consecutive parts of one sequence of sides. -/
theorem coin_drawn_in_order (r : Rig κ) :
    (∀ (η : Type) [Routine η] (hook : η) (elapsed : Elapsed) (out : Outlets) (s : Summary),
        (r.run hook elapsed out).ending = .completed s →
        let sides := drawnSides (r.transcript hook out)
        let coin := (r.run hook elapsed out).rig.coin
        flips sides.length r.coin = (sides, coin) ∧ s.metrics.draws = .ofNat sides.length ∧
          (sides.length < UInt64.size → flips s.metrics.draws.toNat r.coin = (sides, coin))) ∧
      (∀ (used : Rig κ) (log : List (List Bool × Ending)), r.Ran used log →
        let sides := log.flatMap (·.1)
        flips sides.length r.coin = (sides, used.coin) ∧
          (∀ e ∈ log, ∀ s, e.2 = .completed s → s.metrics.draws = .ofNat e.1.length) ∧
          ((∀ e ∈ log, e.1.length < UInt64.size ∧ ∃ s, e.2 = .completed s) →
            sides.length = totalDraws log)) ∧
      ∀ (first used : Rig ScriptedCoin) (log : List (List Bool × Ending)), first.Ran used log →
        first.coin.draws = 0 →
        let script := first.coin.script
        let sides := log.flatMap (·.1)
        used.coin.draws = .ofNat sides.length ∧
          (0 < script.size →
            ∀ j < sides.length, sides[j]? = script[j % UInt64.size % script.size]?) ∧
          (sides.length < UInt64.size → (∀ e ∈ log, ∃ s, e.2 = .completed s) →
            used.coin.draws.toNat = totalDraws log ∧
              (0 < script.size → ∀ j < totalDraws log, sides[j]? = script[j % script.size]?)) := by
  refine ⟨?_, ?_, ?_⟩
  · intro η _ hook elapsed out s completed sides coin
    have flipped := r.flips_run hook elapsed out
    obtain ⟨p, returned, rfl⟩ := returned_of_completed completed
    have draws : p.metrics.draws = .ofNat sides.length := (metrics_of_returned returned out).2.1
    refine ⟨flipped, draws, fun fits => ?_⟩
    change flips p.metrics.draws.toNat r.coin = _
    rw [draws, UInt64.toNat_ofNat_of_lt' fits]
    exact flipped
  · intro used log ran
    exact ⟨ran.flips, ran.draws, length_of_completed ran.draws⟩
  · intro first used log ran unused script sides
    have flipped : flips sides.length first.coin = (sides, used.coin) := ran.flips
    have coin := ScriptedCoin.flips_eq sides.length first.coin
    rw [flipped, unused, UInt64.zero_add] at coin
    have draws : used.coin.draws = .ofNat sides.length := congrArg ScriptedCoin.draws coin
    -- The position counts modulo `2 ^ 64`, and the script is read at its remainder.
    have shown (nonempty : 0 < script.size) (j : Nat) (bound : j < sides.length) :
        sides[j]? = script[j % UInt64.size % script.size]? := by
      have side := ScriptedCoin.getElem?_flips nonempty bound
      rw [flipped, unused, UInt64.zero_add, UInt64.toNat_ofNat'] at side
      exact side
    refine ⟨draws, shown, fun fits completed => ?_⟩
    have length : sides.length = totalDraws log :=
      length_of_completed ran.draws fun e member =>
        ⟨Nat.lt_of_le_of_lt (length_le_of_mem member) fits, completed e member⟩
    rw [draws, UInt64.toNat_ofNat_of_lt' fits, ← length]
    refine ⟨rfl, fun nonempty j bound => ?_⟩
    have side := shown nonempty j bound
    rw [Nat.mod_eq_of_lt (Nat.lt_trans bound fits)] at side
    exact side

/-- Two runs on one coin, with another sink in between: a chain that draws twice per call, and
the monitor. -/
theorem coin_drawn_in_order_scripted :
    let first : Rig ScriptedCoin :=
      { settings := .withIterations 2, coin := { script := #[true, false, false] } }
    let draw : Script := ⟨"draw", [⟨.always, [.draw]⟩]⟩
    let chain : Hook Script := .chain "outer" [.nondetAntiOp, .chain "inner" [.custom draw]]
    let once := first.run chain {} {}
    let again := once.rig.withSink (.buffer 0)
    let twice := again.run ({} : ParityMonitor) {} {}
    let log := [(drawnSides (first.transcript chain {}), once.ending),
      (drawnSides (again.transcript ({} : ParityMonitor) {}), twice.ending)]
    first.Ran twice.rig log ∧ first.coin.draws = 0 ∧ (∀ e ∈ log, ∃ s, e.2 = .completed s) ∧
      (log.flatMap (·.1)).length = 6 ∧ twice.rig.coin.draws.toNat = totalDraws log ∧
      (log.flatMap (·.1))[4]? = some false ∧
      flips 6 first.coin = (log.flatMap (·.1), twice.rig.coin) ∧
      ∃ s, (first.run chain {} {}).ending = .completed s ∧
        flips s.metrics.draws.toNat first.coin =
          (drawnSides (first.transcript chain {}), (first.run chain {} {}).rig.coin) := by
  intro first draw chain once again twice log
  have ran : first.Ran twice.rig log :=
    ((Ran.new.run chain {} {}).withSink (.buffer 0)).run ({} : ParityMonitor) {} {}
  have first_completes : once.ending.summary?.isSome = true := by decide +kernel
  have second_completes : twice.ending.summary?.isSome = true := by decide +kernel
  have completed : ∀ e ∈ log, ∃ s, e.2 = .completed s := by
    simp only [log, List.forall_mem_cons, List.not_mem_nil, false_implies, implies_true, and_true]
    exact ⟨Ending.exists_completed first_completes, Ending.exists_completed second_completes⟩
  have total : (log.flatMap (·.1)).length = 6 := by decide +kernel
  have fits : (log.flatMap (·.1)).length < UInt64.size := by rw [total]; decide
  have alone_fits : (drawnSides (first.transcript chain {})).length < UInt64.size := by
    decide +kernel
  obtain ⟨alone, together, scripted⟩ := coin_drawn_in_order first
  obtain ⟨flipped, -, -⟩ := together twice.rig log ran
  obtain ⟨-, sides, counted⟩ := scripted first twice.rig log ran rfl
  obtain ⟨s, ended⟩ : ∃ s, (first.run chain {} {}).ending = .completed s :=
    Ending.exists_completed first_completes
  have fifth := sides (by decide) 4 (by omega)
  have shown : first.coin.script[4 % UInt64.size % first.coin.script.size]? = some false := by
    decide
  rw [total] at flipped
  exact ⟨ran, rfl, completed, total, (counted fits completed).1, fifth.trans shown, flipped, s,
    ended, (alone (Hook Script) chain {} {} s ended).2.2 alone_fits⟩

end Rig

end HookRig
