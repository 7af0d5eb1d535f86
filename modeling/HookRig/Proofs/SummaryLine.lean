import HookRig.CommandLine.Exit
import HookRig.Proofs.StockRuns
import HookRig.Proofs.UnitInterval

/-! # The line printed for given arguments

Arguments are refused for a count that is too large or a bias outside the unit interval, and
for nothing else. All others give a line, and the sum in it is known from the arguments
alone: from the count, the kind of the hook and, where that draws, the flips of the coin.
-/

namespace HookRig

open Finset

theorem Threshold.admits_error {t : Threshold} (h : t ≠ none) : t.admits .error = true := by
  cases t with
  | none => contradiction
  | some least => cases least <;> rfl

namespace CommandLine

namespace Arguments

def Acceptable (a : Arguments) : Prop :=
  a.iterations.toNat < 2 ^ 63 ∧
    a.bias.isNaN = false ∧ 0 ≤ a.bias.value ∧ a.bias.value ≤ Binary64.one.value

def ones (a : Arguments) : Finset ℕ :=
  (range a.iterations.toNat).filter fun j =>
    (flips a.iterations.toNat (SeededCoin.withBias a.seed a.bias)).1[j]? = some true

def sum (a : Arguments) : ℤ :=
  let n : ℕ := a.iterations.toNat
  match a.hook with
  | .noop => (n * (n - 1) / 2 : ℤ).bmod (2 ^ 64)
  | .antiOp | .signCheck => n / 2
  | .nondetAntiOp | .simpleState => (signedSum a.ones n).bmod (2 ^ 64)

/-- What arguments that are not acceptable are refused for. The count comes first. -/
def refusal (a : Arguments) : Settings.Problem :=
  if 2 ^ 63 ≤ a.iterations.toNat then .tooManyIterations a.iterations else .badBias a.bias

def rig (a : Arguments) : Rig Coin where
  settings := a.settings
  coin := .seeded (.withBias a.seed a.bias)

instance (a : Arguments) : Decidable a.Acceptable := inferInstanceAs (Decidable (_ ∧ _))

theorem problem?_settings (a : Arguments) :
    a.settings.problem? = if a.Acceptable then none else some a.refusal := by
  have count : Settings.maxIterations < a.settings.iterations ↔ 2 ^ 63 ≤ a.iterations.toNat :=
    UInt64.lt_iff_toNat_lt
  unfold Settings.problem? refusal
  by_cases many : 2 ^ 63 ≤ a.iterations.toNat
  · have refused : ¬ a.Acceptable := fun h => Nat.not_lt.mpr many h.1
    rw [if_pos (count.mpr many), if_neg refused, if_pos many]
    rfl
  · rw [if_neg (mt count.mp many), if_neg many]
    by_cases unit : a.bias.inUnit = true
    · have accepted : a.Acceptable := ⟨by omega, Binary64.inUnit_iff.mp unit⟩
      rw [if_pos accepted]
      simp [settings, unit]
    · have refused : ¬ a.Acceptable := fun h => unit (Binary64.inUnit_iff.mpr h.2)
      rw [if_neg refused]
      simp [settings, unit]

theorem settings_rig_valid {a : Arguments} (h : a.Acceptable) :
    a.rig.settings.problem? = none := by
  rw [rig, problem?_settings, if_pos h]

theorem drive_of_acceptable {a : Arguments} (h : a.Acceptable) (out : Outlets) :
    a.drive out = .ok (a.rig.drive a.hook.build out) := by
  rw [drive, Rig.new, Rig.ofSettings, problem?_settings, if_pos h]
  rfl

theorem drive_of_refused {a : Arguments} (h : ¬ a.Acceptable) (out : Outlets) :
    a.drive out = .error a.refusal := by
  rw [drive, Rig.new, Rig.ofSettings, problem?_settings, if_neg h]
  rfl

theorem drawnOnes_rig (a : Arguments) : a.rig.drawnOnes = a.ones := by
  unfold Rig.drawnOnes ones
  rw [rig, flips_seeded]
  rfl

theorem bmod_signedSum_turns {a : Arguments} (h : a.Acceptable) :
    (signedSum (a.rig.turns a.hook) a.iterations.toNat).bmod (2 ^ 64) = a.sum := by
  have small := h.1
  unfold sum
  cases a.hook with
  | noop => rw [Rig.turns, signedSum_empty]
  | antiOp | signCheck =>
      have half : signedSum (range a.rig.settings.iterations.toNat) a.iterations.toNat =
          a.iterations.toNat / 2 :=
        signedSum_of_all fun i below => mem_range.mpr below
      rw [Rig.turns, half]
      exact Int.bmod_eq_of_le (by omega) (by omega)
  | nondetAntiOp | simpleState => rw [Rig.turns, drawnOnes_rig]

theorem line_of_acceptable {a : Arguments} (h : a.Acceptable) (elapsed : Elapsed)
    (out : Outlets) :
    (a.line elapsed out).1 = some (Text.natural a.iterations.toNat ++ " took " ++
      Text.natural elapsed.seconds.toNat ++ "s (sum=" ++ Text.integer a.sum ++ ")") := by
  have run : a.rig.Negates (a.hook.build : Hook Empty) elapsed out (a.rig.turns a.hook) :=
    Rig.negates_stock (settings_rig_valid h) a.hook elapsed out
  rcases run with ⟨-, s, ending, modulo, -⟩
  have sum : s.sum.toInt = a.sum := (toInt_eq_bmod modulo).trans (bmod_signedSum_turns h)
  rcases Rig.returned_of_completed ending with ⟨p, -, rfl⟩
  have printed : (a.line elapsed out).1 =
      (a.rig.run (a.hook.build : Hook Empty) elapsed out).ending.summary?.map Summary.text := by
    rw [line, drive_of_acceptable h]
    rfl
  rw [printed, ending, ← sum]
  rfl

theorem line_of_refused {a : Arguments} (h : ¬ a.Acceptable) (elapsed : Elapsed) (out : Outlets) :
    a.line elapsed out =
      (none, out.log .error target ("invalid configuration: " ++ a.refusal.message)) := by
  rw [line, drive_of_refused h]
  rfl

/-- Arguments give a line exactly if their count is not too large and their bias is from zero to
one, and the sum in it is known from them. All others are refused, with a record and no run. -/
theorem line_told_by_arguments (a : Arguments) (elapsed : Elapsed) (out : Outlets) :
    ((a.line elapsed out).1.isSome ↔ a.Acceptable) ∧
      (a.iterations.toNat < 2 ^ 63 → a.bias.payload = 0 → a.Acceptable) ∧
      (a.Acceptable → (a.line elapsed out).1 = some (Text.natural a.iterations.toNat ++ " took " ++
        Text.natural elapsed.seconds.toNat ++ "s (sum=" ++ Text.integer a.sum ++ ")")) ∧
      (¬ a.Acceptable →
        let error : Record :=
          ⟨.error, "artbench::cli", "invalid configuration: " ++ a.refusal.message⟩
        a.drive out = .error a.refusal ∧ a.execute elapsed out = (.error a.refusal, out) ∧
          a.line elapsed out = (none, out.log error.level error.target error.text) ∧
          (out.journal.threshold ≠ none →
            (a.line elapsed out).2.journal.records = out.journal.records ++ [error])) ∧
      a.drive out ≠ .error .noTraceRoom := by
  refine ⟨?_, ?_, fun h => line_of_acceptable h elapsed out, ?_, ?_⟩
  · by_cases h : a.Acceptable
    · simp [line_of_acceptable h, h]
    · simp [line_of_refused h, h]
  · intro small zero
    have value : a.bias.value = 0 := Binary64.value_of_zero zero
    refine ⟨small, Binary64.isNaN_eq_false_iff.mpr (by omega), by omega, ?_⟩
    rw [value]
    decide +kernel
  · intro h error
    have line : a.line elapsed out = (none, out.log error.level error.target error.text) :=
      line_of_refused h elapsed out
    refine ⟨drive_of_refused h out, ?_, line, ?_⟩
    · rw [execute, drive_of_refused h]
    · intro keeps
      rw [line]
      show (out.journal.log error).records = _
      rw [Journal.records_log, if_pos (Threshold.admits_error keeps)]
  · by_cases h : a.Acceptable
    · rw [drive_of_acceptable h]
      nofun
    · rw [drive_of_refused h, refusal]
      split <;> nofun

/-- The largest count with the negative zero, a coin that is certain, and a count too large by one
with a bias that is no number. -/
theorem line_told_by_arguments_at_the_bounds :
    let most : Arguments :=
      { iterations := 9223372036854775807, hook := .noop, bias := ⟨0x8000000000000000⟩ }
    let certain : Arguments := { iterations := 5, bias := .one, trace := true }
    let more : Arguments := { iterations := 9223372036854775808, bias := ⟨0x7ff8000000000000⟩ }
    (most.line ⟨3, 999999999⟩ {}).1 =
        some "9223372036854775807 took 3s (sum=4611686018427387905)" ∧
      (certain.line {} {}).1 = some "5 took 0s (sum=2)" ∧
      (more.line {} {}).1.isSome = false ∧
      (more.line {} {}).2.journal.records = [⟨.error, "artbench::cli", "invalid configuration: " ++
        "iterations 9223372036854775808 exceeds maximum of 9223372036854775807"⟩] := by
  intro most certain more
  rcases line_told_by_arguments most ⟨3, 999999999⟩ {} with ⟨-, zero, line, -⟩
  rcases line_told_by_arguments certain {} {} with ⟨-, -, printed, -⟩
  rcases line_told_by_arguments more {} {} with ⟨given, -, -, refused, -⟩
  have accepted : certain.Acceptable := by decide +kernel
  have refusal : ¬ more.Acceptable := fun h => absurd h.1 (by decide)
  refine ⟨(line (zero (by decide) (by decide))).trans (by decide), ?_, ?_, ?_⟩
  · exact (printed accepted).trans (by decide +kernel)
  · rw [Bool.eq_false_iff, ne_eq, given]
    exact refusal
  · exact ((refused refusal).2.2.2 nofun).trans (by decide)

end Arguments

end CommandLine

end HookRig
