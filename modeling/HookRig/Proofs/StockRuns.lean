import HookRig.Hook.Stock
import HookRig.Proofs.Counterparts
import HookRig.Proofs.Negations

/-! # Runs of the stock hooks

All that a stock hook does to the sum is to negate it: never, at every call, or when the coin
shows one. Its run ends with the signed sum that belongs to these iterations.
-/

namespace HookRig

open Finset

theorem signedSum_empty (n : ℕ) : signedSum ∅ n = n * (n - 1) / 2 := by
  induction n with
  | zero => rfl
  | succ n ih => rw [signedSum_succ, ih, if_neg (notMem_empty n), one_mul, triangle_succ]

/-- If every index turns the signs of the earlier ones, they cancel out in pairs. -/
theorem signedSum_of_all {turns : Finset ℕ} {n : ℕ} (all : ∀ i < n, i ∈ turns) :
    signedSum turns n = n / 2 := by
  induction n with
  | zero => rfl
  | succ n ih =>
      have earlier := ih fun i below => all i (Nat.lt_succ_of_lt below)
      rw [signedSum_succ, earlier, if_pos (all n (Nat.lt_succ_self n))]
      omega

namespace Bench

variable {κ σ : Type} [CoinSource κ] [Receiver σ]

theorem Turned.check {b c : Bench κ σ} {turn : Bool} (h : b.Turned c turn) (site : Site)
    (holds : Bool) (message : String) :
    b.Turned (c.answer site (.check holds message)).2 turn := by
  cases holds with
  | true => exact ⟨h.sum, h.negations⟩
  | false => exact ⟨h.sum, h.negations⟩

end Bench

theorem Hook.carries_monitor {ε : Type} [Routine ε] :
    Routine.Carries (Hook.monitor : ParityMonitor → Hook ε) := by
  intro m
  change Hook.call _ = _
  rw [Hook.call, map_eq_pure_bind]

namespace Rig

variable {κ ε η : Type} [CoinSource κ] [Routine ε] [Routine η]

/-- A hook that stays as it is and does the same to the sum at every call. -/
theorem negates_constant {r : Rig κ} (valid : r.settings.problem? = none) {hook : Hook ε}
    {turn : Bool} (calls : ∀ (site : Site) (b : Bench κ Ledger),
      ∃ c, hook.call.run site b = (.returned hook, c) ∧ b.Turned c turn)
    (elapsed : Elapsed) (out : Outlets) :
    r.Negates hook elapsed out (turnsOf (fun _ => turn) r.settings.iterations.toNat) := by
  refine negates_of_turned valid (I := fun p => p.hook = hook) rfl ?_ elapsed out
  intro p same room
  rcases calls ⟨hook.name, p.index⟩ p.bench with ⟨c, called, turned⟩
  rw [same]
  exact ⟨hook, c, called, turned, fun keep => rfl⟩

theorem negates_never {r : Rig κ} (valid : r.settings.problem? = none) {hook : Hook ε}
    (calls : ∀ (site : Site) (b : Bench κ Ledger),
      ∃ c, hook.call.run site b = (.returned hook, c) ∧ b.Turned c false)
    (elapsed : Elapsed) (out : Outlets) : r.Negates hook elapsed out ∅ := by
  have never : turnsOf (fun _ => false) r.settings.iterations.toNat = ∅ := by
    simp [turnsOf]
  rw [← never]
  exact negates_constant valid calls elapsed out

/-- Hooks that make the same requests negate in the same iterations. -/
theorem Negates.mapped {θ : Type} [Routine θ] {f : η → θ} (carries : Routine.Carries f) {r : Rig κ}
    {hook : η} (name : Routine.name (f hook) = Routine.name hook) {elapsed : Elapsed}
    {out : Outlets} {turns : Finset ℕ} (h : r.Negates hook elapsed out turns) :
    r.Negates (f hook) elapsed out turns := by
  have loop : r.traced.onLedger (f hook) = (r.traced.onLedger hook).map (Progress.mapHook f) :=
    r.traced.loop_mapped carries name ({} : Ledger) r.settings.iterations.toNat
  have history : r.history (f hook) = r.history hook := by
    rw [Rig.history, loop, Rig.history]
    cases r.traced.onLedger hook <;> rfl
  rw [Negates, history, r.run_mapped carries name]
  exact h

def turns (r : Rig κ) : Stock → Finset ℕ
  | .noop => ∅
  | .antiOp | .signCheck => range r.settings.iterations.toNat
  | .nondetAntiOp | .simpleState => r.drawnOnes

theorem negates_stock {r : Rig κ} (valid : r.settings.problem? = none) (stock : Stock)
    (elapsed : Elapsed) (out : Outlets) :
    r.Negates (stock.build : Hook ε) elapsed out (r.turns stock) := by
  have always : turnsOf (fun _ => true) r.settings.iterations.toNat =
      range r.settings.iterations.toNat := by
    simp [turnsOf]
  cases stock with
  | noop =>
      refine negates_never valid ?_ elapsed out
      intro site b
      rw [Stock.build, Hook.call]
      exact ⟨b, rfl, b.turned_of_choice false⟩
  | antiOp =>
      rw [turns, ← always]
      refine negates_constant valid ?_ elapsed out
      intro site b
      rw [Stock.build, Hook.call]
      exact ⟨_, rfl, b.turned_of_choice true⟩
  | signCheck =>
      rw [turns, ← always]
      refine negates_constant valid ?_ elapsed out
      intro site b
      rw [Stock.build, Hook.call]
      exact ⟨_, rfl, (b.turned_of_choice true).check site _ _⟩
  | nondetAntiOp => exact negates_nondetAntiOp valid elapsed out
  | simpleState => exact (negates_monitor valid {} elapsed out).mapped Hook.carries_monitor rfl

end Rig

end HookRig
