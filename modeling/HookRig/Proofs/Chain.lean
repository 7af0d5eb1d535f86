import HookRig.Hook.Basic
import HookRig.Proofs.Loop

/-! # Calls of a chain

The hooks of a chain are called one after the other on the same bench. A list of
hooks can be cut anywhere, and a chain of hooks that never panic never panics.
-/

namespace HookRig

namespace Program

variable {α β : Type}

instance : LawfulMonad Program :=
  LawfulMonad.mk' Program
    (by
      intro α p
      induction p with
      | done a => rfl
      | ask r next ih => exact congrArg (Program.ask r) (funext ih))
    (fun _ _ => rfl)
    (by
      intro α β γ p f g
      induction p with
      | done a => rfl
      | ask r next ih => exact congrArg (Program.ask r) (funext ih))

@[simp] theorem run_map {κ σ : Type} [CoinSource κ] [Receiver σ] (site : Site) (f : α → β)
    (p : Program α) (b : Bench κ σ) :
    (f <$> p).run site b = (f (p.run site b).1, (p.run site b).2) :=
  run_bind site p _ b

/-- All results that a program can reach, whatever the replies, have a property. -/
def Ensures (P : α → Prop) : Program α → Prop
  | .done a => P a
  | .ask _ next => ∀ reply, (next reply).Ensures P

theorem Ensures.run {κ σ : Type} [CoinSource κ] [Receiver σ] {P : α → Prop} {p : Program α}
    (h : p.Ensures P) (site : Site) (b : Bench κ σ) : P (p.run site b).1 := by
  induction p generalizing b with
  | done a => exact h
  | ask r next ih => exact ih _ (h _) _

theorem Ensures.mono {P Q : α → Prop} {p : Program α} (h : p.Ensures P) (weaker : ∀ a, P a → Q a) :
    p.Ensures Q := by
  induction p with
  | done a => exact weaker a h
  | ask r next ih => exact fun reply => ih reply (h reply)

theorem Ensures.bind {P : α → Prop} {Q : β → Prop} {p : Program α} {f : α → Program β}
    (h : p.Ensures P) (next : ∀ a, P a → (f a).Ensures Q) : (p >>= f).Ensures Q := by
  induction p with
  | done a => exact next a h
  | ask r rest ih => exact fun reply => ih reply (h reply)

theorem ensures_true (p : Program α) : p.Ensures fun _ => True := by
  induction p with
  | done a => trivial
  | ask r next ih => exact ih

/-- What follows a program decides about the results, if it does so in all cases. -/
theorem ensures_then {Q : β → Prop} (p : Program α) {f : α → Program β}
    (next : ∀ a, (f a).Ensures Q) : (p >>= f).Ensures Q :=
  p.ensures_true.bind fun a _ => next a

/-- What follows a program matters only for the results that it can reach. -/
theorem bind_congr_of_ensures {f g : α → Program β} {p : Program α}
    (h : p.Ensures fun a => f a = g a) : p >>= f = p >>= g := by
  induction p with
  | done a => exact h
  | ask r next ih => exact congrArg (Program.ask r) (funext fun reply => ih reply (h reply))

end Program

/-- A hook none of whose calls, from now on, can panic. -/
def Routine.Calm {η : Type} [Routine η] (hook : η) : Prop :=
  ∃ I : η → Prop, I hook ∧ ∀ h, I h →
    (Routine.call h).Ensures fun o => ∃ h', o = .returned h' ∧ I h'

theorem Routine.Calm.call {η : Type} [Routine η] {hook : η} (h : Routine.Calm hook) :
    (Routine.call hook).Ensures fun o => ∃ hook', o = .returned hook' ∧ Routine.Calm hook' := by
  obtain ⟨I, holds, keeps⟩ := h
  refine (keeps hook holds).mono ?_
  rintro _ ⟨hook', rfl, holds'⟩
  exact ⟨hook', rfl, I, holds', keeps⟩

theorem ParityMonitor.calm (m : ParityMonitor) : Routine.Calm m := by
  refine ⟨fun _ => True, trivial, ?_⟩
  intro m _
  change m.call.Ensures _
  unfold ParityMonitor.call
  -- Whatever is asked on the way, the last step returns.
  refine Program.ensures_then _ fun i => Program.ensures_then _ fun found => ?_
  refine Program.ensures_then _ fun m₁ => Program.ensures_then _ fun m₂ => ?_
  exact Program.ensures_then _ fun _ => Program.ensures_then _ fun left => ⟨_, rfl, trivial⟩

namespace Outcome

@[simp] theorem map_id {σ : Type} (o : Outcome σ) : o.map (fun s => s) = o := by
  cases o <;> rfl

@[simp] theorem map_map {σ τ υ : Type} (f : σ → τ) (g : τ → υ) (o : Outcome σ) :
    (o.map f).map g = o.map (g ∘ f) := by
  cases o <;> rfl

end Outcome

namespace Hook

variable {ε κ σ : Type} [Routine ε] [CoinSource κ] [Receiver σ]

theorem run_callAll_nil (site : Site) (b : Bench κ σ) :
    (callAll ([] : List (Hook ε))).run site b = (.returned [], b) := by
  rw [callAll]
  rfl

theorem run_callAll_cons (site : Site) (hook : Hook ε) (rest : List (Hook ε)) (b : Bench κ σ) :
    (callAll (hook :: rest)).run site b =
      match hook.call.run site b with
      | (.returned hook', c) =>
          (((callAll rest).run site c).1.map (hook' :: ·), ((callAll rest).run site c).2)
      | (.panicked hook' message, c) => (.panicked (hook' :: rest) message, c) := by
  rw [callAll, Program.run_then]
  obtain ⟨outcome, c⟩ := hook.call.run site b
  cases outcome with
  | returned hook' => exact Program.run_then site (callAll rest) _ c
  | panicked hook' message => rfl

omit [CoinSource κ] [Receiver σ] in
/-- A list of hooks can be cut anywhere: the second part is called if all hooks of the first
return, and not at all if one of them panics. -/
theorem callAll_append (pre post : List (Hook ε)) :
    callAll (pre ++ post) = callAll pre >>= fun
      | .returned pre' => Outcome.map (pre' ++ ·) <$> callAll post
      | .panicked pre' message => pure (.panicked (pre' ++ post) message) := by
  induction pre with
  | nil =>
      have same : Outcome.map (fun hooks : List (Hook ε) => [] ++ hooks) = id := by
        funext o
        exact Outcome.map_id o
      rw [List.nil_append, callAll, pure_bind]
      simp only [same, id_map]
  | cons hook rest ih =>
      rw [List.cons_append, callAll, callAll, ih, bind_assoc]
      refine bind_congr fun o => ?_
      cases o with
      | panicked hook' message => rfl
      | returned hook' =>
          simp only [bind_assoc]
          refine bind_congr fun first => ?_
          cases first with
          | panicked rest' message => rfl
          | returned rest' =>
              simp only [map_eq_pure_bind, bind_assoc, pure_bind, Outcome.map_map]
              rfl

theorem run_callAll_append (site : Site) (pre post : List (Hook ε)) (b : Bench κ σ) :
    (callAll (pre ++ post)).run site b =
      match (callAll pre).run site b with
      | (.returned pre', c) =>
          (((callAll post).run site c).1.map (pre' ++ ·), ((callAll post).run site c).2)
      | (.panicked pre' message, c) => (.panicked (pre' ++ post) message, c) := by
  rw [callAll_append, Program.run_then]
  obtain ⟨outcome, c⟩ := (callAll pre).run site b
  cases outcome with
  | returned pre' => exact Program.run_map site _ (callAll post) c
  | panicked pre' message => rfl

theorem returned_callAll_append {site : Site} {pre post hooks : List (Hook ε)} {b d : Bench κ σ}
    (h : (callAll (pre ++ post)).run site b = (.returned hooks, d)) :
    ∃ pre' c post', (callAll pre).run site b = (.returned pre', c) ∧
      (callAll post).run site c = (.returned post', d) ∧ hooks = pre' ++ post' := by
  rw [run_callAll_append] at h
  split at h
  case h_2 => cases h
  case h_1 pre' c before =>
    cases after : (callAll post).run site c with
    | mk outcome d' =>
        rw [after] at h
        cases outcome with
        | panicked post' message => cases h
        | returned post' =>
            cases h
            exact ⟨pre', c, post', before, after, rfl⟩

theorem returned_callAll_cons {site : Site} {hook : Hook ε} {rest hooks : List (Hook ε)}
    {b d : Bench κ σ} (h : (callAll (hook :: rest)).run site b = (.returned hooks, d)) :
    ∃ hook' c rest', hook.call.run site b = (.returned hook', c) ∧
      (callAll rest).run site c = (.returned rest', d) ∧ hooks = hook' :: rest' := by
  rw [run_callAll_cons] at h
  split at h
  case h_2 => cases h
  case h_1 hook' c first =>
    cases later : (callAll rest).run site c with
    | mk outcome d' =>
        rw [later] at h
        cases outcome with
        | panicked rest' message => cases h
        | returned rest' =>
            cases h
            exact ⟨hook', c, rest', first, later, rfl⟩

theorem callAs_chain (b : Bench κ σ) (name called : String) (hooks : List (Hook ε))
    (i : Iteration) :
    b.callAs name (.chain called hooks : Hook ε) i =
      (((callAll hooks).run ⟨name, i⟩ b).1.map (.chain called),
        ((callAll hooks).run ⟨name, i⟩ b).2) := by
  rw [Bench.callAs]
  change (Hook.call _).run _ _ = _
  rw [call]
  exact Program.run_then _ (callAll hooks) _ b

theorem callAs_chain_returned {b c : Bench κ σ} {name called : String} {hooks : List (Hook ε)}
    {i : Iteration} {hook : Hook ε}
    (h : b.callAs name (.chain called hooks : Hook ε) i = (.returned hook, c)) :
    ∃ hooks', (callAll hooks).run ⟨name, i⟩ b = (.returned hooks', c) ∧
      hook = .chain called hooks' := by
  rw [callAs_chain] at h
  obtain ⟨outcome, rfl⟩ := Prod.mk.inj h
  cases ran : ((callAll hooks).run ⟨name, i⟩ b).1 with
  | returned hooks' =>
      rw [ran] at outcome
      cases outcome
      exact ⟨hooks', Prod.ext ran rfl, rfl⟩
  | panicked hooks' message =>
      rw [ran] at outcome
      cases outcome

theorem length_callAll {site : Site} {hooks hooks' : List (Hook ε)} {b c : Bench κ σ}
    (h : (callAll hooks).run site b = (.returned hooks', c)) : hooks'.length = hooks.length := by
  induction hooks generalizing hooks' b with
  | nil =>
      rw [run_callAll_nil] at h
      cases h
      rfl
  | cons hook rest ih =>
      obtain ⟨hook', d, rest', -, later, rfl⟩ := returned_callAll_cons h
      rw [List.length_cons, List.length_cons, ih later]

/-- Hooks that never panic, called in order: all of them return, and none of them can
panic later. -/
theorem callAll_of_calm {hooks : List (Hook ε)} (calm : ∀ h ∈ hooks, Routine.Calm h) :
    (callAll hooks).Ensures fun o => ∃ hooks', o = .returned hooks' ∧
      ∀ h ∈ hooks', Routine.Calm h := by
  induction hooks with
  | nil =>
      rw [callAll]
      exact ⟨[], rfl, by simp⟩
  | cons hook rest ih =>
      rw [List.forall_mem_cons] at calm
      rw [callAll]
      refine calm.1.call.bind ?_
      rintro _ ⟨hook', rfl, calm'⟩
      refine (ih calm.2).bind ?_
      rintro _ ⟨rest', rfl, calms⟩
      exact ⟨hook' :: rest', rfl, List.forall_mem_cons.mpr ⟨calm', calms⟩⟩

omit [Routine ε] in
def isPlain : Hook ε → Bool
  | .custom _ | .chain _ _ => false
  | _ => true

theorem calm_of_isPlain {hook : Hook ε} (plain : hook.isPlain) : Routine.Calm hook := by
  refine ⟨fun h => h.isPlain, plain, ?_⟩
  intro h plain
  change h.call.Ensures _
  cases h with
  | custom h => cases plain
  | chain name hooks => cases plain
  | monitor m =>
      rw [call]
      refine m.calm.call.bind ?_
      rintro _ ⟨m', rfl, -⟩
      exact ⟨_, rfl, rfl⟩
  | noop | counting calls =>
      rw [call]
      exact ⟨_, rfl, rfl⟩
  | antiOp | recording newestFirst =>
      rw [call]
      exact Program.ensures_then _ fun _ => ⟨_, rfl, rfl⟩
  | nondetAntiOp | scheduled schedule =>
      rw [call]
      refine Program.ensures_then _ fun reply => ?_
      split
      · exact Program.ensures_then _ fun _ => ⟨_, rfl, rfl⟩
      · exact ⟨_, rfl, rfl⟩
  | failing period | tamper delta =>
      rw [call]
      exact Program.ensures_then _ fun _ => Program.ensures_then _ fun _ => ⟨_, rfl, rfl⟩
  | signCheck =>
      rw [call]
      exact Program.ensures_then _ fun _ => Program.ensures_then _ fun _ =>
        Program.ensures_then _ fun _ => ⟨_, rfl, rfl⟩

theorem calm_chain (name : String) {hooks : List (Hook ε)} (calm : ∀ h ∈ hooks, Routine.Calm h) :
    Routine.Calm (.chain name hooks : Hook ε) := by
  refine ⟨fun h => ∃ hooks, h = .chain name hooks ∧ ∀ x ∈ hooks, Routine.Calm x,
    ⟨hooks, rfl, calm⟩, ?_⟩
  rintro _ ⟨hooks, rfl, calm⟩
  change (Hook.call _).Ensures _
  rw [call]
  refine (callAll_of_calm calm).bind ?_
  rintro _ ⟨hooks', rfl, calm'⟩
  exact ⟨_, rfl, hooks', rfl, calm'⟩

end Hook

/-- A hook that never panics lets every loop come to its end. -/
theorem Progress.advance_of_calm {κ σ η : Type} [CoinSource κ] [Receiver σ] [Routine η]
    {name : String} {keep : Option Nat} {p : Progress κ σ η} (calm : Routine.Calm p.hook)
    (n : Nat) :
    ∃ q, advance name keep n p = .returned q := by
  have proceeds : ∀ p : Progress κ σ η, Routine.Calm p.hook →
      ∃ q, p.step name keep = .returned q ∧ Routine.Calm q.hook := by
    intro p calm
    obtain ⟨hook, returned, calm'⟩ := calm.call.run ⟨name, p.index⟩ p.bench
    exact ⟨_, step_of_call (Prod.ext returned rfl), calm'⟩
  obtain ⟨q, run, -⟩ := advance_returns (I := fun p => Routine.Calm p.hook)
    (fun p calm _ => proceeds p calm) calm (Nat.le_refl (p.calls + n))
  exact ⟨q, run⟩

end HookRig
