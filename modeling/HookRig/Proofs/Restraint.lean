import HookRig.Proofs.Agreement
import HookRig.Proofs.Chain

/-! # What a hook never asks for

A hook may forgo some of the requests it could make. What only these requests change stays as
it is for the whole of a run: without checks nothing is reported, and without draws the coin is
not flipped.
-/

namespace HookRig

namespace Request

def isCheck : Request → Bool
  | .check _ _ => true
  | _ => false

def isDraw : Request → Bool
  | .draw => true
  | _ => false

end Request

namespace Program

variable {κ σ α β : Type} {kind : Request → Bool}

/-- No request of the kind is made, whatever the replies are. -/
def Forgoes (kind : Request → Bool) : Program α → Prop
  | .done _ => True
  | .ask r next => kind r = false ∧ ∀ reply, (next reply).Forgoes kind

theorem Forgoes.run [CoinSource κ] [Receiver σ] {V : Bench κ σ → β}
    (unseen : ∀ site b r, kind r = false → V (b.answer site r).2 = V b) {p : Program α}
    (h : p.Forgoes kind) (site : Site) (b : Bench κ σ) : V (p.run site b).2 = V b := by
  induction p generalizing b with
  | done a => rfl
  | ask r next ih =>
      have rest := ih (b.answer site r).1 (h.2 _) (b.answer site r).2
      exact rest.trans (unseen site b r h.1)

end Program

def Routine.Forgoes {η : Type} [Routine η] (kind : Request → Bool) (hook : η) : Prop :=
  ∃ I : η → Prop, I hook ∧ ∀ h, I h →
    (Routine.call h).Forgoes kind ∧ (Routine.call h).Ensures fun o => I o.state

theorem Routine.Forgoes.call {η : Type} [Routine η] {kind : Request → Bool} {hook : η}
    (h : Routine.Forgoes kind hook) :
    (Routine.call hook).Forgoes kind ∧
      (Routine.call hook).Ensures fun o => Routine.Forgoes kind o.state := by
  rcases h with ⟨I, holds, keeps⟩
  rcases keeps hook holds with ⟨forgoes, after⟩
  exact ⟨forgoes, after.mono fun o inv => ⟨I, inv, keeps⟩⟩

theorem Progress.unchanged_of_advance {κ σ η β : Type} [CoinSource κ] [Receiver σ] [Routine η]
    {kind : Request → Bool} {V : Bench κ σ → β}
    (unseen : ∀ site b r, kind r = false → V (b.answer site r).2 = V b)
    (added : ∀ b i, V (b.addIndex i) = V b) {name : String} {keep : Option Nat} {n : Nat}
    {first p : Progress κ σ η} (forgoes : Routine.Forgoes kind first.hook)
    (h : advance name keep n first = .returned p) : V p.bench = V first.bench := by
  have kept : Routine.Forgoes kind p.hook ∧ V p.bench = V first.bench := by
    refine advance_invariant (I := fun p => Routine.Forgoes kind p.hook ∧
      V p.bench = V first.bench) ?_ ⟨forgoes, rfl⟩ (Nat.le_refl _) h
    rintro p q - ⟨forgoes, same⟩ stepped
    rcases step_returned stepped with ⟨hook, bench, call, rfl⟩
    have ran := forgoes.call.1.run unseen ⟨name, p.index⟩ p.bench
    have after := forgoes.call.2.run ⟨name, p.index⟩ p.bench
    rw [show (Routine.call p.hook).run ⟨name, p.index⟩ p.bench = _ from call] at ran after
    exact ⟨after, (added bench p.index).trans (ran.trans same)⟩
  exact kept.2

namespace Bench

variable {κ σ : Type} [CoinSource κ]

theorem answer_of_not_check (site : Site) (b : Bench κ Ledger) {r : Request}
    (other : r.isCheck = false) :
    ((b.answer site r).2.diagnostics, (b.answer site r).2.counters.failures) =
      (b.diagnostics, b.counters.failures) := by
  cases r with
  | check holds message => cases other
  | iteration | sum | counters | store | antiOp | draw | note => rfl

theorem answer_of_not_draw [Receiver σ] (site : Site) (b : Bench κ σ) {r : Request}
    (other : r.isDraw = false) :
    ((b.answer site r).2.coin, (b.answer site r).2.counters.draws) =
      (b.coin, b.counters.draws) := by
  cases r with
  | draw => cases other
  | check holds message => cases holds <;> rfl
  | iteration | sum | counters | store | antiOp | note => rfl

end Bench

namespace Rig

variable {κ η : Type} [CoinSource κ] [Routine η] {r : Rig κ} {hook : η} {p : Progress κ Ledger η}

theorem silent_of_forgoes (forgoes : Routine.Forgoes Request.isCheck hook)
    (h : r.onLedger hook = .returned p) :
    p.bench.diagnostics = [] ∧ p.bench.counters.failures = 0 := by
  have same := Progress.unchanged_of_advance (V := fun b => (b.diagnostics, b.counters.failures))
    (fun site b _ other => b.answer_of_not_check site other) (fun _ _ => rfl) forgoes h
  exact Prod.mk.inj same

theorem unflipped_of_forgoes (forgoes : Routine.Forgoes Request.isDraw hook)
    (h : r.onLedger hook = .returned p) :
    p.bench.coin = r.coin ∧ p.bench.counters.draws = 0 := by
  have same := Progress.unchanged_of_advance (V := fun b => (b.coin, b.counters.draws))
    (fun site b _ other => b.answer_of_not_draw site other) (fun _ _ => rfl) forgoes h
  exact Prod.mk.inj same

end Rig

namespace Hook

variable {ε : Type} [Routine ε] {kind : Request → Bool}

theorem forgoes_of_constant {hook : Hook ε} (forgoes : hook.call.Forgoes kind)
    (constant : hook.call.Ensures fun o => o.state = hook) : Routine.Forgoes kind hook := by
  refine ⟨fun h => h = hook, rfl, ?_⟩
  rintro h rfl
  exact ⟨forgoes, constant⟩

theorem forgoes_noop : Routine.Forgoes kind (Hook.noop : Hook ε) := by
  apply forgoes_of_constant <;> rw [call]
  · trivial
  · rfl

theorem forgoes_nondetAntiOp (draw : kind .draw = false) (antiOp : kind .antiOp = false) :
    Routine.Forgoes kind (Hook.nondetAntiOp : Hook ε) := by
  apply forgoes_of_constant <;> rw [call]
  · refine ⟨draw, fun side => ?_⟩
    cases side with
    | false => trivial
    | true => exact ⟨antiOp, fun _ => trivial⟩
  · intro side
    cases side with
    | false => rfl
    | true => exact fun _ => rfl

theorem forgoes_signCheck (antiOp : kind .antiOp = false) (sum : kind .sum = false)
    (check : ∀ holds message, kind (.check holds message) = false) :
    Routine.Forgoes kind (Hook.signCheck : Hook ε) := by
  apply forgoes_of_constant <;> rw [call]
  · exact ⟨antiOp, fun _ => ⟨sum, fun _ => ⟨check _ _, fun _ => trivial⟩⟩⟩
  · exact fun _ _ _ => rfl

end Hook

end HookRig
