import HookRig.Proofs.Draws
import HookRig.Proofs.Reruns

/-! # Consecutive runs

Runs that follow each other on one rig share its settings, its sink and its coin. If each of
them flips the coin equally often, the coin that a run finds is known from their number.
-/

namespace HookRig

namespace Rig

variable {κ η : Type} [CoinSource κ] [Routine η]

/-- The rig after so many runs in a row, each with its own hook, time and outlets. -/
def afterRuns (r : Rig κ) (hooks : Nat → η) (times : Nat → Elapsed) (outs : Nat → Outlets) :
    Nat → Rig κ
  | 0 => r
  | k + 1 => ((r.afterRuns hooks times outs k).run (hooks k) (times k) (outs k)).rig

def nthRun (r : Rig κ) (hooks : Nat → η) (times : Nat → Elapsed) (outs : Nat → Outlets) (k : Nat) :
    Aftermath κ η :=
  (r.afterRuns hooks times outs k).run (hooks k) (times k) (outs k)

theorem settings_afterRuns (r : Rig κ) (hooks : Nat → η) (times : Nat → Elapsed)
    (outs : Nat → Outlets) (k : Nat) :
    (r.afterRuns hooks times outs k).settings = r.settings ∧
      (r.afterRuns hooks times outs k).sink = r.sink := by
  induction k with
  | zero => exact ⟨rfl, rfl⟩
  | succ k ih =>
      have kept := rig_run (r.afterRuns hooks times outs k) (hooks k) (times k) (outs k)
      exact ⟨kept.1.trans ih.1, kept.2.1.trans ih.2⟩

theorem coin_afterRuns {r : Rig κ} {hooks : Nat → η} {times : Nat → Elapsed}
    {outs : Nat → Outlets} {n : Nat}
    (flipped : ∀ (s : Rig κ) (k : Nat), s.settings = r.settings →
      (s.run (hooks k) (times k) (outs k)).rig.coin = (flips n s.coin).2) (k : Nat) :
    (r.afterRuns hooks times outs k).coin = (flips (k * n) r.coin).2 := by
  induction k with
  | zero => rw [Nat.zero_mul]; rfl
  | succ k ih =>
      have kept := (r.settings_afterRuns hooks times outs k).1
      rw [afterRuns, flipped _ k kept, ih, Nat.succ_mul, flips_add]

end Rig

end HookRig
