import HookRig.Proofs.Nesting
import Mathlib.Data.List.Basic

/-! # How often leaves are called

A hook can be given a count of its own calls. A tree of chains with a count at each leaf
runs as the tree itself does, so the counts tell how often its leaves are called: all of
them in each iteration that returns, and in one that panics those up to the leaf that
panics.
-/

namespace HookRig

structure Tallied (η : Type) where
  hook : η
  calls : Nat := 0

instance {η : Type} [Routine η] : Routine (Tallied η) where
  name t := Routine.name t.hook
  call t := Outcome.map (Tallied.mk · (t.calls + 1)) <$> Routine.call t.hook

namespace Hook

variable {ε δ : Type}

mutual

/-- The tree with hooks put in the places of the caller's own ones. -/
def graft (f : ε → Hook δ) : Hook ε → Hook δ
  | .noop => .noop
  | .antiOp => .antiOp
  | .nondetAntiOp => .nondetAntiOp
  | .signCheck => .signCheck
  | .monitor m => .monitor m
  | .counting calls => .counting calls
  | .scheduled schedule => .scheduled schedule
  | .failing period => .failing period
  | .recording newestFirst => .recording newestFirst
  | .tamper delta => .tamper delta
  | .custom x => f x
  | .chain name hooks => .chain name (graftAll f hooks)

def graftAll (f : ε → Hook δ) : List (Hook ε) → List (Hook δ)
  | [] => []
  | hook :: rest => hook.graft f :: graftAll f rest

end

theorem graftAll_eq_map (f : ε → Hook δ) (hooks : List (Hook ε)) :
    graftAll f hooks = hooks.map (graft f) := by
  induction hooks with
  | nil => rw [graftAll, List.map_nil]
  | cons hook rest ih => rw [graftAll, ih, List.map_cons]

mutual

theorem leaves_graft (f : ε → Hook δ) (hook : Hook ε) :
    (hook.graft f).leaves = hook.leaves.flatMap fun leaf => (leaf.graft f).leaves := by
  cases hook with
  | chain name hooks => rw [graft, leaves, leaves, leavesAll_graft f hooks]
  | _ => simp [leaves]

theorem leavesAll_graft (f : ε → Hook δ) (hooks : List (Hook ε)) :
    leavesAll (graftAll f hooks) = (leavesAll hooks).flatMap fun leaf => (leaf.graft f).leaves := by
  cases hooks with
  | nil => simp [graftAll, leavesAll]
  | cons hook rest =>
      rw [graftAll, leavesAll, leavesAll, List.flatMap_append, leaves_graft f hook,
        leavesAll_graft f rest]

end

section

variable [Routine ε] [Routine δ] {f : ε → Hook δ}

mutual

/-- If each hook that is put in makes the requests of the one it stands for, so does the tree. -/
theorem call_graft (carries : Routine.Carries f) (hook : Hook ε) :
    (hook.graft f).call = Outcome.map (graft f) <$> hook.call := by
  cases hook with
  | custom x =>
      have own : (f x).call = Outcome.map f <$> Routine.call x := carries x
      rw [graft, own, call, ← map_eq_pure_bind, ← comp_map]
      refine congrArg (· <$> Routine.call x) (funext fun o => ?_)
      cases o <;> simp [Outcome.map, graft]
  | chain name hooks =>
      rw [graft, call, call, callAll_graft carries hooks, ← map_eq_pure_bind, ← map_eq_pure_bind,
        ← comp_map, ← comp_map]
      refine congrArg (· <$> callAll hooks) (funext fun o => ?_)
      cases o <;> simp [Outcome.map, graft]
  | monitor m =>
      rw [graft, call, call, ← map_eq_pure_bind, ← map_eq_pure_bind, ← comp_map]
      refine congrArg (· <$> Routine.call m) (funext fun o => ?_)
      cases o <;> simp [Outcome.map, graft]
  | nondetAntiOp | scheduled schedule =>
      rw [graft, call, call, map_eq_pure_bind, bind_assoc]
      refine bind_congr fun reply => ?_
      split <;> simp [Outcome.map, graft]
  | _ => rw [graft, call, call]; simp [Outcome.map, graft]

theorem callAll_graft (carries : Routine.Carries f) (hooks : List (Hook ε)) :
    callAll (graftAll f hooks) = Outcome.map (graftAll f) <$> callAll hooks := by
  cases hooks with
  | nil => rw [graftAll, callAll, callAll]; simp [Outcome.map, graftAll]
  | cons hook rest =>
      rw [graftAll, callAll, callAll, call_graft carries hook, callAll_graft carries rest]
      simp only [map_eq_pure_bind, bind_assoc, pure_bind]
      refine bind_congr fun o => ?_
      cases o with
      | panicked hook' message => simp [Outcome.map, graftAll]
      | returned hook' =>
          simp only [Outcome.map, bind_assoc, pure_bind]
          refine bind_congr fun later => ?_
          cases later <;> simp [graftAll]

end

theorem StopsAt.graft {κ σ : Type} [CoinSource κ] [Receiver σ] (carries : Routine.Carries f)
    {site : Site} {place : Nat} {message : String} {hooks hooks' : List (Hook ε)} {b c : Bench κ σ}
    (h : StopsAt site place message hooks hooks' b c) :
    StopsAt site place message (hooks.map (graft f)) (hooks'.map (graft f)) b c := by
  obtain ⟨pre, leaf, post, pre', leaf', mid, rfl, rfl, length, before, stopped⟩ := h
  refine ⟨pre.map (Hook.graft f), leaf.graft f, post.map (Hook.graft f), pre'.map (Hook.graft f),
    leaf'.graft f, mid, by simp, by simp, by simp [length], ?_, ?_⟩
  · rw [← graftAll_eq_map, callAll_graft carries, Program.run_map, before, Outcome.map,
      graftAll_eq_map]
  · rw [call_graft carries, Program.run_map, stopped, Outcome.map]

end

mutual

def tallied : Hook ε → Hook (Tallied (Hook ε))
  | .chain name hooks => .chain name (talliedAll hooks)
  | leaf => .custom { hook := leaf }

def talliedAll : List (Hook ε) → List (Hook (Tallied (Hook ε)))
  | [] => []
  | hook :: rest => hook.tallied :: talliedAll rest

end

def untallied : Hook (Tallied (Hook ε)) → Hook ε := graft Tallied.hook

def tally : Hook (Tallied (Hook ε)) → Nat
  | .custom t => t.calls
  | _ => 0

def Counted (n : Nat) (leaf : Hook (Tallied (Hook ε))) : Prop :=
  ∃ hook, leaf = .custom ⟨hook, n⟩ ∧ hook.role ≠ .chain

mutual

theorem untallied_tallied (hook : Hook ε) : hook.tallied.untallied = hook := by
  cases hook with
  | chain name hooks => rw [tallied, untallied, graft, talliedAll_graft hooks]
  | _ => simp [tallied, untallied, graft]

theorem talliedAll_graft (hooks : List (Hook ε)) :
    graftAll Tallied.hook (talliedAll hooks) = hooks := by
  cases hooks with
  | nil => rw [talliedAll, graftAll]
  | cons hook rest =>
      have first := untallied_tallied hook
      rw [untallied] at first
      rw [talliedAll, graftAll, first, talliedAll_graft rest]

end

mutual

theorem counted_tallied (hook : Hook ε) : ∀ leaf ∈ hook.tallied.leaves, leaf.Counted 0 := by
  cases hook with
  | chain name hooks => rw [tallied, leaves]; exact counted_talliedAll hooks
  | _ => simp [tallied, leaves, Counted, role]

theorem counted_talliedAll (hooks : List (Hook ε)) :
    ∀ leaf ∈ leavesAll (talliedAll hooks), leaf.Counted 0 := by
  cases hooks with
  | nil => simp [talliedAll, leavesAll]
  | cons hook rest =>
      rw [talliedAll, leavesAll, List.forall_mem_append]
      exact ⟨counted_tallied hook, counted_talliedAll rest⟩

end

theorem leaves_untallied {hook : Hook (Tallied (Hook ε))}
    (counted : ∀ leaf ∈ hook.leaves, ∃ n, leaf.Counted n) :
    hook.untallied.leaves = hook.leaves.map untallied := by
  rw [untallied, leaves_graft, List.map_eq_flatMap]
  refine List.flatMap_congr fun leaf member => ?_
  obtain ⟨n, own, rfl, single⟩ := counted leaf member
  rw [graft, leaves_of_role single]

variable [Routine ε]

theorem name_tallied (hook : Hook ε) : hook.tallied.name = hook.name := by
  cases hook <;> simp [tallied, name, Routine.name]

theorem carries_hook : Routine.Carries (Tallied.hook : Tallied (Hook ε) → Hook ε) := by
  intro t
  change t.hook.call = Outcome.map Tallied.hook <$> (Outcome.map _ <$> t.hook.call)
  rw [← comp_map]
  have same (o : Outcome (Hook ε)) :
      (Outcome.map Tallied.hook ∘ Outcome.map (Tallied.mk · (t.calls + 1))) o = o := by
    cases o <;> rfl
  rw [funext same, id_map']

theorem call_counted {n : Nat} {leaf : Hook (Tallied (Hook ε))} (h : leaf.Counted n) :
    leaf.call.Ensures fun o => o.state.Counted (n + 1) := by
  obtain ⟨hook, rfl, single⟩ := h
  rw [call]
  have called : (Routine.call (Tallied.mk hook n)).Ensures fun o =>
      ∃ hook', o.state = ⟨hook', n + 1⟩ ∧ hook'.role ≠ .chain := by
    refine hook.role_call.bind fun o kept => ⟨o.state, ?_, kept ▸ single⟩
    cases o <;> rfl
  refine called.bind ?_
  intro o counted
  obtain ⟨hook', state, single'⟩ := counted
  refine ⟨hook', ?_, single'⟩
  rw [Outcome.state_map, state]

theorem callAll_counted {n : Nat} {hooks : List (Hook (Tallied (Hook ε)))}
    (counted : ∀ leaf ∈ hooks, leaf.Counted n) :
    (callAll hooks).Ensures fun o => ∀ hooks', o = .returned hooks' →
      hooks'.length = hooks.length ∧ ∀ leaf ∈ hooks', leaf.Counted (n + 1) := by
  induction hooks with
  | nil =>
      rw [callAll]
      intro hooks' returned
      cases returned
      simp
  | cons hook rest ih =>
      rw [List.forall_mem_cons] at counted
      rw [callAll]
      refine (call_counted counted.1).bind fun o here => ?_
      cases o with
      | panicked hook' message => exact fun hooks' returned => nomatch returned
      | returned hook' =>
          refine (ih counted.2).bind fun later there hooks' returned => ?_
          cases later with
          | panicked rest' message => cases returned
          | returned rest' =>
              cases returned
              obtain ⟨length, all⟩ := there rest' rfl
              exact ⟨by simp [length], List.forall_mem_cons.mpr ⟨here, all⟩⟩

/-- Hooks that stop at a place: up to there each has one call more. -/
theorem counted_of_stopsAt {κ σ : Type} [CoinSource κ] [Receiver σ] {site : Site} {place n : Nat}
    {message : String} {hooks hooks' : List (Hook (Tallied (Hook ε)))} {b c : Bench κ σ}
    (h : StopsAt site place message hooks hooks' b c) (counted : ∀ leaf ∈ hooks, leaf.Counted n) :
    ∃ called spared, hooks' = called ++ spared ∧ called.length = place + 1 ∧
      (∀ leaf ∈ called, leaf.Counted (n + 1)) ∧ ∀ leaf ∈ spared, leaf.Counted n := by
  obtain ⟨pre, leaf, post, pre', leaf', mid, rfl, rfl, rfl, before, stopped⟩ := h
  rw [List.forall_mem_append, List.forall_mem_cons] at counted
  obtain ⟨length, earlier⟩ := (callAll_counted counted.1).run site b pre' (by rw [before])
  have here := (call_counted counted.2.1).run site mid
  rw [stopped] at here
  refine ⟨pre' ++ [leaf'], post, List.append_cons _ _ _, by simp [length], ?_, counted.2.2⟩
  exact List.forall_mem_append.mpr ⟨earlier, List.forall_mem_singleton.mpr here⟩

omit [Routine ε] in
theorem tally_of_counted {n : Nat} {hooks : List (Hook (Tallied (Hook ε)))}
    (counted : ∀ leaf ∈ hooks, leaf.Counted n) :
    hooks.map tally = List.replicate hooks.length n := by
  rw [List.map_eq_replicate_iff]
  intro leaf member
  obtain ⟨hook, rfl, -⟩ := counted leaf member
  rfl

end Hook

namespace Rig

open Hook

variable {κ σ ε : Type} [CoinSource κ] [Receiver σ] [Routine ε]

/-- In every iteration that returns, all leaves are called once. -/
theorem counted_of_loop {r : Rig κ} {hook : Hook ε} {sink : σ} {n : Nat}
    {p : Progress κ σ (Hook (Tallied (Hook ε)))} (h : r.loop hook.tallied sink n = .returned p) :
    ∀ leaf ∈ p.hook.leaves, leaf.Counted n := by
  have calls : p.calls = n := (Progress.calls_of_advance h).trans (Nat.zero_add n)
  have all : ∀ leaf ∈ p.hook.leaves, leaf.Counted p.calls := by
    refine Progress.advance_invariant (I := fun p => ∀ leaf ∈ p.hook.leaves, leaf.Counted p.calls)
      ?_ hook.counted_tallied (Nat.le_refl _) h
    intro p q _ counted stepped
    obtain ⟨hook', bench, called, rfl⟩ := Progress.step_returned stepped
    have flat := (callAll_counted counted).run ⟨Routine.name hook.tallied, p.index⟩ p.bench
    rw [Faithful.run_callAll call_leaves, called] at flat
    exact (flat _ rfl).2
  rw [calls] at all
  exact all

end Rig

end HookRig
