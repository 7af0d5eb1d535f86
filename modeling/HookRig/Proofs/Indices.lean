import HookRig.Accumulator
import HookRig.Run.Settings
import Mathlib.Data.Int.ModEq
import Mathlib.Tactic.Ring

/-! # Indices and sums as integers

Settings that are not refused ask for fewer than `2 ^ 63` iterations. Below that
bound an index adds exactly itself, and an addition that is not exact is too
large by `2 ^ 64`: a sum never wraps downwards.
-/

namespace HookRig

/-- A sum is known from its exact value modulo `2 ^ 64`. -/
theorem toInt_eq_bmod {x : Int64} {value : ℤ} (h : x.toInt ≡ value [ZMOD 2 ^ 64]) :
    x.toInt = value.bmod (2 ^ 64) := by
  have low := x.le_toInt
  have high := x.toInt_lt
  rw [Int.ModEq] at h
  rw [Int.bmod_def]
  split <;> omega

theorem toInt_add_modEq (x y : Int64) : (x + y).toInt ≡ x.toInt + y.toInt [ZMOD 2 ^ 64] := by
  rw [Int64.toInt_add]
  exact Int.bmod_emod

theorem toInt_neg_modEq (x : Int64) : (-x).toInt ≡ -x.toInt [ZMOD 2 ^ 64] := by
  rw [Int64.toInt_neg]
  exact Int.bmod_emod

/-- The sum of the indices below `n`, and one more index. -/
theorem triangle_succ (n : ℕ) :
    ((n + 1 : ℕ) * ((n + 1 : ℕ) - 1) / 2 : ℤ) = n * (n - 1) / 2 + n := by
  have double : ((n + 1 : ℕ) * ((n + 1 : ℕ) - 1) : ℤ) = n * (n - 1) + n * 2 := by
    push_cast
    ring
  rw [double, Int.add_mul_ediv_right _ _ (by decide)]

namespace Iteration

theorem toNat_ofNat {n : Nat} (h : n < 2 ^ 63) : (ofNat n).index.toNat = n :=
  UInt64.toNat_ofNat_of_lt' (Nat.lt_trans h (by decide))

theorem toInt_addend (i : Iteration) : i.addend.toInt = min i.index.toNat (2 ^ 63 - 1) := by
  have limit : i.index ≤ Int64.maxValue.toUInt64 ↔ i.index.toNat ≤ 2 ^ 63 - 1 :=
    UInt64.le_iff_toNat_le
  unfold addend
  by_cases small : i.index.toNat ≤ 2 ^ 63 - 1
  · have signed : i.index.toInt64.toInt = i.index.toNat := by
      rw [← UInt64.ofNat_toNat (x := i.index), UInt64.toInt64_ofNat', UInt64.ofNat_toNat]
      exact Int64.toInt_ofNat_of_lt (by omega)
    rw [if_pos (limit.mpr small), signed]
    omega
  · rw [if_neg (mt limit.mp small), Int64.toInt_maxValue]
    omega

theorem toInt_addend_ofNat {n : Nat} (h : n < 2 ^ 63) : (ofNat n).addend.toInt = n := by
  rw [toInt_addend, toNat_ofNat h]
  omega

theorem ofNat_injective {m n : Nat} (hm : m < 2 ^ 63) (hn : n < 2 ^ 63)
    (h : ofNat m = ofNat n) : m = n := by
  rw [← toNat_ofNat hm, ← toNat_ofNat hn, h]

@[simp] theorem ofNat_zero : ofNat 0 = zero := rfl

theorem ofNat_succ_ne_zero {n : Nat} (h : n + 1 < 2 ^ 63) : ofNat (n + 1) ≠ zero := by
  intro eq
  have same : n + 1 = 0 := ofNat_injective h (by decide) eq
  omega

@[simp] theorem next_ofNat (n : Nat) : (ofNat n).next = ofNat (n + 1) := by
  simp [next, ofNat]

/-- In the wrapping order the last index is followed by zero, which no later index is. -/
theorem eq_next_iff {i u : Iteration} (later : i ≠ .zero) :
    i = u.next ↔ i.index.toNat = u.index.toNat + 1 := by
  have bound := i.index.toNat_lt
  have next : u.next.index.toNat = (u.index.toNat + 1) % 2 ^ 64 := UInt64.toNat_add u.index 1
  have positive : i.index.toNat ≠ 0 := by
    intro none
    exact later (congrArg Iteration.mk (UInt64.toNat_inj.mp none))
  constructor
  · intro same
    have small := u.index.toNat_lt
    rw [same, next] at positive ⊢
    omega
  · intro same
    apply congrArg Iteration.mk
    rw [← UInt64.toNat_inj]
    show i.index.toNat = u.next.index.toNat
    omega

/-- Sums are equal where their exact values agree modulo `2 ^ 64`. -/
theorem eq_add_addend_iff_min {x y : Int64} {i : Iteration} :
    x = y + i.addend ↔ x.toInt ≡ y.toInt + min i.index.toNat (2 ^ 63 - 1) [ZMOD 2 ^ 64] := by
  rw [← toInt_addend]
  constructor
  · intro same
    rw [same]
    exact toInt_add_modEq y i.addend
  · intro same
    rw [← Int64.toInt_inj, Int64.toInt_add]
    exact toInt_eq_bmod same

theorem eq_add_addend_iff {x y : Int64} {n : Nat} (h : n < 2 ^ 63) :
    x = y + (ofNat n).addend ↔ x.toInt ≡ y.toInt + n [ZMOD 2 ^ 64] := by
  rw [eq_add_addend_iff_min, ← toInt_addend, toInt_addend_ofNat h]

end Iteration

namespace Accumulator

/-- The sum that is stored is the exact one, less `2 ^ 64` if that is too large. -/
theorem toInt_addIndex (a : Accumulator) {n : Nat} (h : n < 2 ^ 63) :
    (a.addIndex (.ofNat n)).value.toInt =
      a.value.toInt + n - if 2 ^ 63 ≤ a.value.toInt + n then 2 ^ 64 else 0 := by
  rw [value_addIndex, Int64.toInt_add, Iteration.toInt_addend_ofNat h]
  have low := a.value.le_toInt
  have high := a.value.toInt_lt
  rw [Int.bmod_def]
  split <;> split <;> omega

theorem wraps_iff (a : Accumulator) {n : Nat} (h : n < 2 ^ 63) :
    a.wraps (.ofNat n) = true ↔ 2 ^ 63 ≤ a.value.toInt + n := by
  rw [wraps, decide_eq_true_iff, toInt_addIndex a h, Iteration.toInt_addend_ofNat h]
  split <;> omega

end Accumulator

namespace Settings

theorem problem?_eq_none_iff (s : Settings) :
    s.problem? = none ↔ s.iterations ≤ maxIterations ∧ s.bias.inUnit = true ∧
      (s.recordTrace = true → s.traceLimit ≠ 0) := by
  unfold problem?
  by_cases many : maxIterations < s.iterations
  · simp [many, UInt64.not_le.mpr many]
  · by_cases unit : s.bias.inUnit = true
    · simp [many, unit, UInt64.not_lt.mp many]
    · simp [many, unit]

theorem iterations_lt {s : Settings} (h : s.problem? = none) : s.iterations.toNat < 2 ^ 63 := by
  have small := UInt64.le_iff_toNat_le.mp (s.problem?_eq_none_iff.mp h).1
  exact Nat.lt_succ_of_le small

/-- Settings that only choose a count are refused only for the count. -/
theorem problem?_withIterations {n : UInt64} (h : n ≤ maxIterations) :
    (withIterations n).problem? = none := by
  have bias : Binary64.half.inUnit = true := by decide +kernel
  exact (problem?_eq_none_iff _).mpr ⟨h, bias, nofun⟩

end Settings

end HookRig
