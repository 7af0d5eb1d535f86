import HookRig.Hook.Script
import HookRig.Proofs.Negations
import HookRig.Proofs.UnitInterval
import Mathlib.Algebra.Order.Floor.Semifield

/-! # Coins with different biases

A seeded coin shows one where the keystream of its seed is below a threshold, which is the bias in
units of `2 ^ (-64)`, rounded down. Each flip takes one word of the stream, whatever the bias is;
only a certain coin takes none, and it would show nothing else if it did. Two coins with one
seed therefore look at the same words, and the one with the larger bias shows one wherever the
other does.
-/

namespace HookRig

def nthFlip {κ : Type} [CoinSource κ] (c : κ) (k : Nat) : Bool := (CoinSource.flip (flips k c).2).1

theorem nthFlip_seeded (c : SeededCoin) (k : Nat) : nthFlip (Coin.seeded c) k = nthFlip c k := by
  unfold nthFlip
  rw [flips_seeded]
  rfl

theorem Binary64.value_eq_magnitude {p : Binary64} (h : 0 ≤ p.toRat) : p.value = p.magnitude := by
  have low : 0 ≤ p.value := toRat_nonneg_iff.mp h
  unfold value at low ⊢
  split at low <;> simp_all

namespace SeededCoin

open Binary64 (scale toRat IsProbability)

section

variable {p q : Binary64}

theorem threshold_eq_floor (h : 0 ≤ p.toRat) : threshold p = ⌊p.toRat * 2 ^ 64⌋₊ := by
  have power : (2 : ℚ) ^ scale = 2 ^ (scale - 64) * 2 ^ 64 := by
    rw [← pow_add]
    rfl
  have scaled : p.toRat * 2 ^ 64 = (p.magnitude : ℚ) / (2 ^ (scale - 64) : ℕ) := by
    rw [toRat, Binary64.value_eq_magnitude h, power]
    push_cast
    field_simp
  rw [scaled, Nat.floor_div_eq_div, threshold, Nat.pow_eq]

theorem threshold_le (h : 0 ≤ p.toRat) (le : p.toRat ≤ q.toRat) : threshold p ≤ threshold q := by
  rw [threshold_eq_floor h, threshold_eq_floor (h.trans le)]
  exact Nat.floor_le_floor (mul_le_mul_of_nonneg_right le (by positivity))

theorem threshold_lt_iff (h : 0 ≤ p.toRat) : threshold p < 2 ^ 64 ↔ p.toRat < 1 := by
  have unit : (0 : ℚ) < 2 ^ 64 := by positivity
  rw [threshold_eq_floor h, Nat.floor_lt (by positivity)]
  push_cast
  exact mul_lt_iff_lt_one_left unit

theorem threshold_one : threshold .one = 2 ^ 64 := by decide +kernel

end

section

variable {c : SeededCoin}

theorem flips_of_uncertain (h : c.bias ≠ .one) (n : Nat) :
    (flips n c).2 = { c with drawn := c.drawn + n } := by
  induction n with
  | zero => rfl
  | succ n ih =>
      rw [flips_succ, ih]
      change (flip _).2 = _
      simp [flip, h, Nat.add_assoc]

theorem flips_of_certain (h : c.bias = .one) (n : Nat) : (flips n c).2 = c := by
  induction n with
  | zero => rfl
  | succ n ih =>
      rw [flips_succ, ih]
      change (flip _).2 = _
      simp [flip, h]

theorem nthFlip_of_certain (h : c.bias = .one) (k : Nat) : nthFlip c k = true := by
  unfold nthFlip
  rw [flips_of_certain h]
  change (flip _).1 = _
  rw [flip, if_pos h]

/-- The certain coin is no exception: all words are below its threshold. -/
theorem nthFlip_eq (k : Nat) :
    nthFlip c k = decide ((Keystream.draw c.seed (c.drawn + k)).toNat < threshold c.bias) := by
  by_cases certain : c.bias = .one
  · have below := (Keystream.draw c.seed (c.drawn + k)).toNat_lt
    rw [nthFlip_of_certain certain, certain, threshold_one]
    simp [below]
  · unfold nthFlip
    rw [flips_of_uncertain certain]
    change (flip _).1 = _
    rw [flip, if_neg certain]

end

theorem nthFlip_withBias (seed : UInt64) {p : Binary64} (h : p.IsProbability) (k : Nat) :
    nthFlip (withBias seed p) k = true ↔
      (Keystream.draw seed k).toNat < ⌊p.toRat * 2 ^ 64⌋₊ := by
  have bias := bias_withBias_of_inUnit seed (Binary64.inUnit_iff_isProbability.mpr h)
  have drawn : (withBias seed p).drawn + k = k := Nat.zero_add k
  rw [nthFlip_eq, decide_eq_true_iff, bias, drawn, threshold_eq_floor h.2.1]
  rfl

theorem nthFlip_of_le (seed : UInt64) {p q : Binary64} (hp : p.IsProbability)
    (hq : q.IsProbability) (le : p.toRat ≤ q.toRat) {k : Nat}
    (shown : nthFlip (withBias seed p) k = true) : nthFlip (withBias seed q) k = true := by
  have fewer := threshold_le hp.2.1 le
  rw [threshold_eq_floor hp.2.1, threshold_eq_floor hq.2.1] at fewer
  rw [nthFlip_withBias seed hp] at shown
  rw [nthFlip_withBias seed hq]
  omega

end SeededCoin

namespace Rig

section

variable {κ ε : Type} [CoinSource κ] [Routine ε]

theorem mem_drawnOnes {r : Rig κ} {i : ℕ} :
    i ∈ r.drawnOnes ↔ i < r.settings.iterations.toNat ∧ nthFlip r.coin i = true := by
  rw [← turnsOf_flips, turnsOf, Finset.mem_filter, Finset.mem_range]
  rfl

/-- The settings need not be valid for this. -/
theorem negations_nondetAntiOp (r : Rig κ) :
    ∃ p, r.onLedger (Hook.nondetAntiOp : Hook ε) = .returned p ∧
      p.metrics.negations.toNat = r.drawnOnes.card := by
  let hook : Hook ε := .nondetAntiOp
  let turns := turnsOf (nthFlip r.coin) r.settings.iterations.toNat
  have negated : ∃ p, r.onLedger hook = .returned p ∧
      TraceStep.NegatedOn turns (r.history hook) ∧ p.metrics.negations.toNat = turns.card := by
    refine negatedOn_of_turned (Progress.Tosses.start r.coin ({} : Ledger)) ?_
    intro p tosses _
    rcases tosses.call (Routine.name hook) with ⟨c, called, turned, next⟩
    exact ⟨.nondetAntiOp, c, called, turned, next⟩
  rcases negated with ⟨p, returned, -, count⟩
  exact ⟨p, returned, count.trans (congrArg Finset.card r.turnsOf_flips)⟩

end

theorem drawnOnes_subset (seed : UInt64) {p q : Binary64} (hp : p.IsProbability)
    (hq : q.IsProbability) (le : p.toRat ≤ q.toRat) {r s : Rig Coin}
    (coin : r.coin = .seeded (.withBias seed p)) (coin' : s.coin = .seeded (.withBias seed q))
    (same : s.settings.iterations = r.settings.iterations) : r.drawnOnes ⊆ s.drawnOnes := by
  intro i member
  rw [mem_drawnOnes, coin, nthFlip_seeded] at member
  rw [mem_drawnOnes, coin', nthFlip_seeded, same]
  exact ⟨member.1, SeededCoin.nthFlip_of_le seed hp hq le member.2⟩

end Rig

namespace SeededCoin

/-- Of two coins with one seed, the one with the larger bias shows one wherever the other does: both
compare the same words of the keystream with the bias in units of `2 ^ (-64)`, rounded down. -/
theorem larger_bias_shows_more {ε : Type} [Routine ε] (seed : UInt64) (p q : Binary64)
    (hp : p.IsProbability) (hq : q.IsProbability) (le : p.toRat ≤ q.toRat) :
    (∀ k, nthFlip (withBias seed p) k = true → nthFlip (withBias seed q) k = true) ∧
      (∀ k, nthFlip (withBias seed p) k = true ↔
        (Keystream.draw seed k).toNat < ⌊p.toRat * 2 ^ 64⌋₊) ∧
      (p.toRat < 1 →
        ⌊p.toRat * 2 ^ 64⌋₊ < 2 ^ 64 ∧ ∀ k, (flips k (withBias seed p)).2.drawn = k) ∧
      (∀ z, z = .zero ∨ z = ⟨0x8000000000000000⟩ → ∀ k, nthFlip (withBias seed z) k = false) ∧
      (∀ k, nthFlip (withBias seed .one) k = true) ∧
      ∀ (r s : Rig Coin) (elapsed elapsed' : Elapsed) (out out' : Outlets),
        r.coin = .seeded (withBias seed p) → s.coin = .seeded (withBias seed q) →
        s.settings.iterations = r.settings.iterations →
        ∃ a b, (r.run (Hook.nondetAntiOp : Hook ε) elapsed out).ending = .completed a ∧
          (s.run (Hook.nondetAntiOp : Hook ε) elapsed' out').ending = .completed b ∧
          a.metrics.negations ≤ b.metrics.negations := by
  refine ⟨fun k => nthFlip_of_le seed hp hq le, nthFlip_withBias seed hp, ?_, ?_, ?_, ?_⟩
  · intro below
    constructor
    · rw [← threshold_eq_floor hp.2.1]
      exact (threshold_lt_iff hp.2.1).mpr below
    · intro k
      have bias := bias_withBias_of_inUnit seed (Binary64.inUnit_iff_isProbability.mpr hp)
      have uncertain : (withBias seed p).bias ≠ .one := by
        intro certain
        rw [bias] at certain
        rw [certain, Binary64.toRat_one] at below
        exact lt_irrefl 1 below
      rw [flips_of_uncertain uncertain]
      exact Nat.zero_add k
  · rintro z zero k
    have inside : z.inUnit = true ∧ threshold z = 0 := by
      rcases zero with rfl | rfl <;> decide +kernel
    rw [nthFlip_eq, bias_withBias_of_inUnit seed inside.1, inside.2]
    rfl
  · intro k
    have certain : (withBias seed .one).bias = .one :=
      bias_withBias_of_inUnit seed (by decide +kernel)
    exact nthFlip_of_certain certain k
  · intro r s elapsed elapsed' out out' coin coin' same
    rcases Rig.negations_nondetAntiOp (ε := ε) r with ⟨a, returned, count⟩
    rcases Rig.negations_nondetAntiOp (ε := ε) s with ⟨b, returned', count'⟩
    refine ⟨_, _, Rig.completed_of_returned returned elapsed out,
      Rig.completed_of_returned returned' elapsed' out', ?_⟩
    change a.metrics.negations ≤ b.metrics.negations
    rw [UInt64.le_iff_toNat_le, count, count']
    exact Finset.card_le_card (Rig.drawnOnes_subset seed hp hq le coin coin' same)

/-- A quarter and a half on one seed. Both show one at flip one, and only the half at flip five. -/
theorem larger_bias_shows_more_quarter_and_half :
    let quarter : Binary64 := ⟨0x3fd0000000000000⟩
    let r : Rig Coin := { settings := .withIterations 6, coin := .seeded (withBias 7 quarter) }
    let s : Rig Coin := { r with coin := .seeded (withBias 7 .half), sink := .buffer 0 }
    quarter.IsProbability ∧ Binary64.half.IsProbability ∧
      quarter.toRat ≤ Binary64.half.toRat ∧ quarter.toRat < 1 ∧
      nthFlip (withBias 7 quarter) 1 = true ∧ nthFlip (withBias 7 .half) 1 = true ∧
      nthFlip (withBias 7 quarter) 5 = false ∧ nthFlip (withBias 7 .half) 5 = true ∧
      ⌊quarter.toRat * 2 ^ 64⌋₊ < 2 ^ 64 ∧
      ∃ a b, (r.run (Hook.nondetAntiOp : Hook Script) {} {}).ending = .completed a ∧
        (s.run (Hook.nondetAntiOp : Hook Script) {} {}).ending = .completed b ∧
        a.metrics.negations ≤ b.metrics.negations := by
  intro quarter r s
  have hp : quarter.IsProbability := Binary64.inUnit_iff_isProbability.mp (by decide +kernel)
  have hq : Binary64.half.IsProbability :=
    Binary64.inUnit_iff_isProbability.mp Binary64.inUnit_half
  have le : quarter.toRat ≤ Binary64.half.toRat := Binary64.toRat_le_iff.mpr (by decide +kernel)
  have lt : quarter.toRat < 1 := by
    rw [← Binary64.toRat_one, Binary64.toRat_lt_iff]
    decide +kernel
  have shown : nthFlip (withBias 7 quarter) 1 = true := by decide +kernel
  rcases larger_bias_shows_more (ε := Script) 7 quarter .half hp hq le with
    ⟨also, -, threshold, -, -, runs⟩
  exact ⟨hp, hq, le, lt, shown, also 1 shown, by decide +kernel, by decide +kernel,
    (threshold lt).1, runs r s {} {} {} {} rfl rfl rfl⟩

end SeededCoin

end HookRig
