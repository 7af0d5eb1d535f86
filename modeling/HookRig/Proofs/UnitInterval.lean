import HookRig.Hook.Script
import HookRig.Proofs.Draws
import HookRig.Proofs.Reruns
import Mathlib.Data.Rat.Floor
import Mathlib.Tactic.FieldSimp
import Mathlib.Tactic.Positivity

/-! # Biases and the unit interval

Settings are refused for a bias that is not a number from zero to one, and a coin brings such a
bias into the unit interval. The two tests are written differently, and they agree on all bit
patterns: a bias is left as it is exactly if it is accepted.
-/

namespace HookRig

namespace Binary64

def toRat (p : Binary64) : ℚ := p.value / 2 ^ scale

theorem toRat_le_iff {p q : Binary64} : p.toRat ≤ q.toRat ↔ p.value ≤ q.value := by
  have unit : (0 : ℚ) < 2 ^ scale := by positivity
  rw [toRat, toRat, div_le_div_iff_of_pos_right unit, Int.cast_le]

theorem toRat_lt_iff {p q : Binary64} : p.toRat < q.toRat ↔ p.value < q.value := by
  rw [← not_le, toRat_le_iff, not_le]

theorem value_one : one.value = Nat.pow 2 scale := by decide +kernel

@[simp] theorem toRat_one : one.toRat = 1 := by
  have unit : (2 : ℚ) ^ scale ≠ 0 := by positivity
  rw [toRat, value_one, Nat.pow_eq]
  push_cast
  exact div_self unit

theorem value_of_zero {p : Binary64} (h : p.payload = 0) : p.value = 0 := by
  have magnitude : p.magnitude = 0 := by
    rw [magnitude, h]
    decide
  rw [value, magnitude]
  split <;> rfl

theorem toRat_zero : zero.toRat = 0 := by
  simp [toRat, value_of_zero (p := zero) (by decide)]

theorem toRat_nonneg_iff {p : Binary64} : 0 ≤ p.toRat ↔ 0 ≤ p.value := by
  rw [← toRat_zero, toRat_le_iff, value_of_zero (p := zero) (by decide)]

theorem isNaN_eq_false_iff {p : Binary64} : p.isNaN = false ↔ p.payload ≤ infinitePayload := by
  simp [isNaN]

/-- An infinity has a value beyond one, so only what is not a number is to be told apart. -/
theorem inUnit_iff {p : Binary64} :
    p.inUnit = true ↔ p.isNaN = false ∧ 0 ≤ p.value ∧ p.value ≤ one.value := by
  have beyond : Nat.pow 2 scale < magnitudeOf infinitePayload := by decide +kernel
  simp only [inUnit, Bool.and_eq_true, decide_eq_true_eq, value_one, isNaN_eq_false_iff, isFinite]
  constructor
  · intro h
    exact ⟨Nat.le_of_lt h.1.1, h.1.2, h.2⟩
  · intro h
    by_cases infinite : p.payload = infinitePayload
    · have magnitude : p.magnitude = magnitudeOf infinitePayload := by rw [magnitude, infinite]
      rw [value, magnitude] at h
      split at h <;> omega
    · exact ⟨⟨Nat.lt_of_le_of_ne h.1 infinite, h.2.1⟩, h.2.2⟩

def IsProbability (p : Binary64) : Prop := p.isNaN = false ∧ 0 ≤ p.toRat ∧ p.toRat ≤ 1

theorem inUnit_iff_isProbability {p : Binary64} : p.inUnit = true ↔ p.IsProbability := by
  rw [inUnit_iff, IsProbability, toRat_nonneg_iff, ← toRat_one, toRat_le_iff]

theorem inUnit_half : half.inUnit = true := by decide +kernel

theorem inUnit_clampUnit {p : Binary64} (finite : p.isFinite = true) :
    p.clampUnit.inUnit = true := by
  unfold clampUnit
  by_cases low : p.value < 0
  · rw [if_pos low]
    decide +kernel
  · rw [if_neg low]
    by_cases high : Nat.pow 2 scale < p.value
    · rw [if_pos high]
      decide +kernel
    · rw [if_neg high]
      simp only [inUnit, finite, Bool.true_and, Bool.and_eq_true, decide_eq_true_eq]
      omega

theorem clampUnit_of_inUnit {p : Binary64} (h : p.inUnit = true) : p.clampUnit = p := by
  simp only [inUnit, Bool.and_eq_true, decide_eq_true_eq] at h
  have low : ¬ p.value < 0 := by omega
  have high : ¬ (Nat.pow 2 scale : ℤ) < p.value := by omega
  rw [clampUnit, if_neg low, if_neg high]

end Binary64

namespace SeededCoin

variable (seed : UInt64) (p : Binary64)

/-- Whatever bias is asked for, the one in effect is from zero to one. -/
theorem inUnit_withBias : (withBias seed p).bias.inUnit = true := by
  unfold withBias
  by_cases finite : p.isFinite = true
  · rw [if_pos finite]
    exact Binary64.inUnit_clampUnit finite
  · rw [if_neg finite]
    exact Binary64.inUnit_half

variable {p}

theorem bias_withBias_of_inUnit (h : p.inUnit = true) : (withBias seed p).bias = p := by
  have finite : p.isFinite = true := by
    simp only [Binary64.inUnit, Bool.and_eq_true] at h
    exact h.1.1
  rw [withBias, if_pos finite, Binary64.clampUnit_of_inUnit h]

theorem bias_withBias_eq_iff : (withBias seed p).bias = p ↔ p.inUnit = true := by
  constructor
  · intro same
    rw [← same]
    exact inUnit_withBias seed p
  · exact bias_withBias_of_inUnit seed

theorem bias_flips (n : Nat) (c : SeededCoin) :
    (flips n c).2.seed = c.seed ∧ (flips n c).2.bias = c.bias := by
  induction n with
  | zero => exact ⟨rfl, rfl⟩
  | succ n ih =>
      rw [flips_succ, ← ih.1, ← ih.2]
      change (flip _).2.seed = _ ∧ (flip _).2.bias = _
      unfold flip
      split <;> exact ⟨rfl, rfl⟩

end SeededCoin

theorem flips_seeded (n : Nat) (c : SeededCoin) :
    flips n (Coin.seeded c) = ((flips n c).1, .seeded (flips n c).2) := by
  induction n with
  | zero => rfl
  | succ n ih =>
      rw [flips_succ, flips_succ, ih]
      rfl

namespace Rig

/-- As long as it is not given another coin, a rig flips the coin of its settings. -/
theorem Ran.seeded {s : Settings} {r used : Rig Coin} {log : List (List Bool × Ending)}
    (built : Rig.new s = .ok r) (ran : r.Ran used log) :
    ∃ c, used.coin = .seeded c ∧ c.seed = s.seed ∧ c.bias = s.bias := by
  rcases new_eq_ok built with ⟨accepted, rfl⟩
  rcases (s.problem?_eq_none_iff).mp accepted with ⟨-, unit, -⟩
  have flipped := ran.flips
  rw [settingsCoin, flips_seeded] at flipped
  have coin := congrArg Prod.snd flipped
  rcases SeededCoin.bias_flips (log.flatMap (·.1)).length (.withBias s.seed s.bias) with
    ⟨seed, bias⟩
  exact ⟨_, coin.symm, seed, bias.trans (SeededCoin.bias_withBias_of_inUnit s.seed unit)⟩

end Rig

namespace SeededCoin

/-- The bias in effect is from zero to one, and it is the bias asked for exactly if settings with it
are accepted. -/
theorem bias_kept_iff_accepted (seed : UInt64) (p : Binary64) :
    (∀ n, (flips n (withBias seed p)).2.bias = (withBias seed p).bias ∧
        (flips n (withBias seed p)).2.bias.IsProbability) ∧
      (∀ again, (withBias again (withBias seed p).bias).bias = (withBias seed p).bias) ∧
      ((withBias seed p).bias = p ↔ p.IsProbability) ∧
      ∀ s : Settings, s.bias = p →
        (s.iterations ≤ Settings.maxIterations → (s.recordTrace = true → s.traceLimit ≠ 0) →
          ((withBias seed p).bias = p ↔ s.problem? = none)) ∧
        (∀ r, Rig.new s = .ok r → ∀ used log, r.Ran used log →
          ∃ c, used.coin = .seeded c ∧ c.seed = s.seed ∧ c.bias = p) ∧
        ((withBias seed p).bias ≠ p → ∃ problem, Rig.new s = .error problem ∧
          (s.iterations ≤ Settings.maxIterations → problem = .badBias p)) := by
  have unit := inUnit_withBias seed p
  refine ⟨?_, ?_, ?_, ?_⟩
  · intro n
    rw [(bias_flips n (withBias seed p)).2, ← Binary64.inUnit_iff_isProbability]
    exact ⟨rfl, unit⟩
  · intro again
    exact bias_withBias_of_inUnit again unit
  · rw [bias_withBias_eq_iff, Binary64.inUnit_iff_isProbability]
  · rintro s rfl
    refine ⟨?_, ?_, ?_⟩
    · intro count room
      rw [bias_withBias_eq_iff, s.problem?_eq_none_iff]
      exact ⟨fun inside => ⟨count, inside, room⟩, fun all => all.2.1⟩
    · intro r built used log ran
      exact ran.seeded built
    · intro altered
      rw [ne_eq, bias_withBias_eq_iff] at altered
      by_cases many : Settings.maxIterations < s.iterations
      · have refused : s.problem? = some (.tooManyIterations s.iterations) := by
          simp [Settings.problem?, many]
        exact ⟨_, Rig.new_of_problem refused, fun count => absurd many (UInt64.not_lt.mpr count)⟩
      · have refused : s.problem? = some (.badBias s.bias) := by
          simp [Settings.problem?, many, altered]
        exact ⟨_, Rig.new_of_problem refused, fun _ => rfl⟩

/-- The negative zero is kept, through a run that draws, and the least number above one is not. -/
theorem bias_kept_iff_accepted_at_the_ends :
    let least : Binary64 := ⟨0x8000000000000000⟩
    let beyond : Binary64 := ⟨0x3ff0000000000001⟩
    let s : Settings :=
      { iterations := 4, seed := 9, bias := least, recordTrace := true, traceLimit := 1 }
    let r : Rig Coin := { settings := s, coin := Rig.settingsCoin s }
    s.problem? = none ∧ Rig.new s = .ok r ∧ (withBias 9 least).bias = least ∧
      (∃ c, (r.run (Hook.nondetAntiOp : Hook Script) {} {}).rig.coin = .seeded c ∧
        c.seed = 9 ∧ c.bias = least) ∧
      (withBias 9 beyond).bias = .one ∧
      Rig.new { s with bias := beyond } = .error (.badBias beyond) := by
  intro least beyond s r
  rcases bias_kept_iff_accepted 9 least with ⟨-, -, -, settings⟩
  rcases settings s rfl with ⟨accepted, ran, -⟩
  have kept : (withBias 9 least).bias = least := by decide +kernel
  have valid := (accepted (by decide) (by decide)).mp kept
  have built : Rig.new s = .ok r := Rig.new_of_valid valid
  have altered : (withBias 9 beyond).bias = .one := by decide +kernel
  rcases bias_kept_iff_accepted 9 beyond with ⟨-, -, -, settings'⟩
  rcases settings' { s with bias := beyond } rfl with ⟨-, -, refused⟩
  rcases refused (by rw [altered]; decide) with ⟨problem, error, named⟩
  exact ⟨valid, built, kept, ran r built _ _ (.run .new (Hook.nondetAntiOp : Hook Script) {} {}),
    altered, named (by decide) ▸ error⟩

end SeededCoin

end HookRig
