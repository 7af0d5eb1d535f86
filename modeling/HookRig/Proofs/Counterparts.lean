import HookRig.Proofs.Chain
import HookRig.Rig

/-! # Hooks that make the same requests

A bench knows a hook by its requests only. Where a map from one kind of hooks to another
turns every call into a call with the same requests, a run of the mapped hook is the run
of the hook itself, with the map applied to the hook that is left.
-/

namespace HookRig

/-- A map between kinds of hooks that every call respects: the mapped hook makes the same
requests and goes on as the mapped state. -/
def Routine.Carries {η θ : Type} [Routine η] [Routine θ] (f : η → θ) : Prop :=
  ∀ h, Routine.call (f h) = Outcome.map f <$> Routine.call h

def Progress.mapHook {κ σ η θ : Type} (f : η → θ) (p : Progress κ σ η) : Progress κ σ θ :=
  ⟨f p.hook, p.bench, p.calls, p.wraps, p.firstWrap, p.recorded⟩

def Aftermath.mapHook {κ η θ : Type} (f : η → θ) (a : Aftermath κ η) : Aftermath κ θ :=
  ⟨a.rig, f a.hook, a.outlets, a.ending, a.notes⟩

section

variable {κ σ η θ : Type} [CoinSource κ] [Receiver σ] [Routine η] [Routine θ] {f : η → θ}
  (carries : Routine.Carries f)

include carries

theorem Bench.callAs_mapped (b : Bench κ σ) (name : String) (hook : η) (i : Iteration) :
    b.callAs name (f hook) i = ((b.callAs name hook i).1.map f, (b.callAs name hook i).2) := by
  unfold callAs
  rw [carries hook, Program.run_map]

namespace Progress

theorem step_mapHook (name : String) (keep : Option Nat) (p : Progress κ σ η) :
    (p.mapHook f).step name keep = (p.step name keep).map (mapHook f) := by
  have called : (p.mapHook f).bench.callAs name (p.mapHook f).hook (p.mapHook f).index = _ :=
    p.bench.callAs_mapped carries name p.hook p.index
  unfold step
  rw [called]
  cases p.bench.callAs name p.hook p.index with
  | mk outcome bench => cases outcome <;> rfl

theorem advance_mapHook (name : String) (keep : Option Nat) (n : Nat) (p : Progress κ σ η) :
    advance name keep n (p.mapHook f) = (advance name keep n p).map (mapHook f) := by
  induction n generalizing p with
  | zero => rfl
  | succ n ih =>
      simp only [advance, step_mapHook carries]
      cases p.step name keep with
      | returned q => exact ih q
      | panicked q message => rfl

end Progress

theorem Rig.loop_mapped (r : Rig κ) {hook : η} (name : Routine.name (f hook) = Routine.name hook)
    (sink : σ) (n : Nat) :
    r.loop (f hook) sink n = (r.loop hook sink n).map (Progress.mapHook f) := by
  unfold loop
  rw [name]
  exact Progress.advance_mapHook carries _ _ n (.start hook r.coin sink)

theorem Rig.run_mapped (r : Rig κ) {hook : η} (name : Routine.name (f hook) = Routine.name hook)
    (elapsed : Elapsed) (out : Outlets) :
    r.run (f hook) elapsed out = (r.run hook elapsed out).mapHook f := by
  have started : r.started (f hook) out = r.started hook out := by rw [started, started, name]
  have driven : (r.drive (f hook) out).outcome =
      (r.drive hook out).outcome.map (Progress.mapHook f) := by
    simp only [drive, started]
    exact r.loop_mapped carries name _ _
  have named : (r.drive (f hook) out).name = (r.drive hook out).name := name
  unfold run Drive.conclude
  rw [driven, named]
  cases (r.drive hook out).outcome <;> rfl

end

end HookRig
