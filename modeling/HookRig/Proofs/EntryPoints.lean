import HookRig.Hook.Script
import HookRig.Proofs.JournalAndBuffer
import HookRig.Proofs.Reruns
import HookRig.Proofs.SummaryLine
import HookRig.Proofs.Tally
import HookRig.Proofs.Trace

/-! # Three ways to start a run

A run can be started on a rig that was built from checked settings, without a rig for a count that
is cut to the largest allowed, or from the command line. Where they are given the same count,
the three of them go through one and the same run.
-/

namespace HookRig

namespace Settings

theorem toNat_min_maxIterations (n : UInt64) :
    (min n maxIterations).toNat = min n.toNat (2 ^ 63 - 1) :=
  UInt64.toNat_min n maxIterations

theorem min_maxIterations_le (n : UInt64) : min n maxIterations ≤ maxIterations := by
  rw [UInt64.le_iff_toNat_le, toNat_min_maxIterations]
  exact Nat.min_le_right _ _

end Settings

namespace Hook

variable {ε : Type} [Routine ε]

omit [Routine ε] in
def widened : Hook Empty → Hook ε := graft nofun

omit [Routine ε] in
theorem widened_build (stock : Stock) :
    (stock.build : Hook Empty).widened = (stock.build : Hook ε) := by
  cases stock <;> rfl

theorem carries_widened : Routine.Carries (widened : Hook Empty → Hook ε) :=
  fun hook => call_graft nofun hook

end Hook

namespace Rig

def ofCount (n : UInt64) : Rig Coin where
  settings := .withIterations (min n Settings.maxIterations)
  coin := settingsCoin (.withIterations (min n Settings.maxIterations))

theorem valid_ofCount (n : UInt64) : (ofCount n).settings.problem? = none :=
  Settings.problem?_withIterations (Settings.min_maxIterations_le n)

theorem new_eq_ofCount (n : UInt64) :
    Rig.new (.withIterations (min n Settings.maxIterations)) = .ok (ofCount n) :=
  new_of_valid (valid_ofCount n)

variable {κ η ε : Type} [CoinSource κ] [Routine η] [Routine ε]

theorem runFor_eq_run (n : UInt64) (hook : η) (elapsed : Elapsed) (out : Outlets) :
    runFor n hook elapsed out = (ofCount n).run hook elapsed out := rfl

def Reaches (r : Rig κ) (hook : η) (out : Outlets) (i : Iteration) : Prop :=
  ∃ k < r.settings.iterations.toNat, ∃ p,
    r.loop hook (Delivery.mk r.sink (r.started hook out)) k = .returned p ∧ p.index = i

/-- The indices of a run with checked settings stay below the largest number that is stored. -/
theorem Reaches.exact {r : Rig κ} (valid : r.settings.problem? = none) {hook : η} {out : Outlets}
    {i : Iteration} (h : r.Reaches hook out i) :
    i.index.toNat < 2 ^ 63 - 1 ∧ i.addend.toInt = i.index.toNat := by
  rcases h with ⟨k, earlier, p, reached, rfl⟩
  have small := UInt64.le_iff_toNat_le.mp (r.settings.problem?_eq_none_iff.mp valid).1
  have most : Settings.maxIterations.toNat = 2 ^ 63 - 1 := rfl
  have below : k < 2 ^ 63 := by omega
  rw [Progress.index_of_advance reached, Iteration.toNat_ofNat below,
    Iteration.toInt_addend_ofNat below]
  exact ⟨by omega, rfl⟩

end Rig

namespace CommandLine.Arguments

def ofCount (n : UInt64) (stock : Stock) : Arguments := { iterations := n, hook := stock }

theorem acceptable_ofCount {n : UInt64} (h : n ≤ Settings.maxIterations) (stock : Stock) :
    (ofCount n stock).Acceptable := by
  have small := UInt64.le_iff_toNat_le.mp h
  have unit : Binary64.half.inUnit = true := by decide +kernel
  exact ⟨Nat.lt_succ_of_le small, Binary64.inUnit_iff.mp unit⟩

theorem rig_ofCount {n : UInt64} (h : n ≤ Settings.maxIterations) (stock : Stock) :
    (ofCount n stock).rig = Rig.ofCount n := by
  have same : min n Settings.maxIterations = n := by rw [UInt64.min_def, if_pos h]
  rw [Rig.ofCount, same]
  rfl

/-- Where no trace is kept, none is logged: all that is done is to run the hook. -/
theorem execute_of_untraced {a : Arguments} (h : a.Acceptable) (untraced : a.trace = false)
    (elapsed : Elapsed) (out : Outlets) :
    let after := a.rig.run (a.hook.build : Hook Empty) elapsed out
    a.execute elapsed out = (.ok after.ending, after.outlets) := by
  intro after
  have keep : a.rig.settings.keep = none := Settings.keep_eq_none_iff.mpr untraced
  have steps : after.ending.summary?.bind Summary.trace = none := by
    cases ended : after.ending with
    | panicked message => rfl
    | completed s =>
        rcases Rig.returned_of_completed ended with ⟨p, -, rfl⟩
        show (a.rig.settings.keep.map fun _ => p.trace) = none
        rw [keep, Option.map_none]
  rw [execute, drive_of_acceptable h]
  show (Except.ok after.ending,
    logTrace after.outlets ((after.ending.summary?.bind Summary.trace).getD [])) = _
  rw [steps]
  rfl

theorem execute_ofCount {ε : Type} [Routine ε] {n : UInt64} (h : n ≤ Settings.maxIterations)
    (stock : Stock) (elapsed : Elapsed) (out : Outlets) :
    let free := Rig.runFor n (stock.build : Hook ε) elapsed out
    (ofCount n stock).execute elapsed out = (.ok free.ending, free.outlets) := by
  intro free
  have name : Routine.name (stock.build : Hook Empty).widened (η := Hook ε) =
      Routine.name (stock.build : Hook Empty) := by
    cases stock <;> rfl
  have widened := (Rig.ofCount n).run_mapped Hook.carries_widened name elapsed out
  have executed := execute_of_untraced (acceptable_ofCount h stock) rfl elapsed out
  rw [Hook.widened_build] at widened
  rw [rig_ofCount h] at executed
  rw [executed, show free = _ from widened]
  rfl

end CommandLine.Arguments

namespace Rig

open CommandLine (Arguments)

variable {ε : Type} [Routine ε]

/-- A run for a count is the run on the rig of default settings with this count, cut to the largest
allowed, and arguments with this count lead to the same summary. -/
theorem entry_points_agree (n : UInt64) :
    (min n Settings.maxIterations).toNat = min n.toNat (2 ^ 63 - 1) ∧
      ∃ r : Rig Coin, Rig.new (.withIterations (min n Settings.maxIterations)) = .ok r ∧
      (∀ (η : Type) [Routine η] (hook : η) (elapsed elapsed' : Elapsed) (out out' : Outlets),
        let name := Routine.name hook
        let free := runFor n hook elapsed out
        let checked := r.run hook elapsed' out'
        free = r.run hook elapsed out ∧ free.ending.timed elapsed' = checked.ending ∧
          free.hook = checked.hook ∧ free.rig.coin = checked.rig.coin ∧
          free.notes = checked.notes ∧ ∃ made : List Record,
            free.outlets.journal.records = out.journal.records ++
              out.journal.threshold.keeps (made ++ endRecords name free.ending) ∧
            checked.outlets.journal.records = out'.journal.records ++
              out'.journal.threshold.keeps (made ++ endRecords name checked.ending)) ∧
      (n ≤ Settings.maxIterations → ∀ (stock : Stock) (elapsed elapsed' : Elapsed)
        (out out' : Outlets),
        let free := runFor n (stock.build : Hook ε) elapsed' out'
        let arguments : Arguments := { iterations := n, hook := stock }
        ∃ s t, (arguments.execute elapsed out).1 = .ok (.completed s) ∧
          free.ending = .completed t ∧ t = { s with elapsed := elapsed' } ∧ s.sum = t.sum) ∧
      ∀ (η : Type) [Routine η] (hook : η) (out : Outlets) (i : Iteration),
        r.Reaches hook out i → i.index.toNat < 2 ^ 63 - 1 ∧ i.addend.toInt = i.index.toNat := by
  refine ⟨Settings.toNat_min_maxIterations n, ofCount n, new_eq_ofCount n, ?_, ?_, ?_⟩
  · intro η _ hook elapsed elapsed' out out' name free checked
    rcases run_congr (r := ofCount n) rfl rfl hook elapsed elapsed' out out' with
      ⟨ending, hooks, coins, notes⟩
    exact ⟨runFor_eq_run n hook elapsed out, ending, hooks, coins, notes, _,
      (ofCount n).records_run hook elapsed out, (ofCount n).records_run hook elapsed' out'⟩
  · intro small stock elapsed elapsed' out out' free arguments
    have executed : arguments.execute elapsed out = _ :=
      Arguments.execute_ofCount (ε := ε) small stock elapsed out
    rcases negates_stock (ε := ε) (valid_ofCount n) stock elapsed out with ⟨-, s, ended, -⟩
    have timed : (Ending.completed s).timed elapsed' = free.ending :=
      ended ▸ (run_congr (r := ofCount n) rfl rfl _ elapsed elapsed' out out').1
    refine ⟨s, _, ?_, timed.symm, rfl, rfl⟩
    rw [executed]
    exact congrArg Except.ok ended
  · intro η _ hook out i reaches
    exact reaches.exact (valid_ofCount n)

/-- The largest count there is, for a script that panics in its third call, and the largest that is
allowed, for a stock hook. -/
theorem entry_points_agree_past_the_bound :
    let most : UInt64 := 18446744073709551615
    let bound : UInt64 := 9223372036854775807
    let stop : Script := ⟨"stop", [⟨.among [2], [.antiOp, .panic "stopped"]⟩]⟩
    let arguments : Arguments := { iterations := bound, hook := .antiOp }
    ∃ r : Rig Coin, Rig.new (.withIterations bound) = .ok r ∧
      (runFor most stop {} {}).ending = .panicked "stopped" ∧
      runFor most stop {} {} = r.run stop {} {} ∧
      r.Reaches stop {} (.ofNat 2) ∧ (Iteration.ofNat 2).addend.toInt = 2 ∧
      bound ≤ Settings.maxIterations ∧
      ∃ s t, (arguments.execute {} {}).1 = .ok (.completed s) ∧
        (runFor bound (.antiOp : Hook Script) ⟨1, 0⟩ {}).ending = .completed t ∧ s.sum = t.sum := by
  intro most bound stop arguments
  rcases entry_points_agree (ε := Script) most with ⟨-, r, built, runs, -, exact_at⟩
  rcases entry_points_agree (ε := Script) bound with ⟨-, -, -, -, stock, -⟩
  have two : r.Reaches stop {} (.ofNat 2) := by
    cases built.symm.trans (new_eq_ofCount most)
    exact ⟨2, by decide, _, rfl, rfl⟩
  have small : bound ≤ Settings.maxIterations := by decide
  have stopped : (runFor most stop {} {}).ending = .panicked "stopped" := rfl
  rcases stock small .antiOp {} ⟨1, 0⟩ {} {} with ⟨s, t, executed, ran, -, sum⟩
  exact ⟨r, built, stopped, (runs Script stop {} {} {} {}).1, two,
    (exact_at Script stop {} _ two).2, small, s, t, executed, ran, sum⟩

end Rig

end HookRig
