import HookRig.Hook.Script
import HookRig.Proofs.Counterparts
import Mathlib.Logic.Relation

/-! # Nested chains

How chains are nested makes no difference. A tree of chains does what the one chain of its
leaves does, and hooks that do nothing can be put in or left out anywhere.
-/

namespace HookRig

namespace Hook

variable {ε : Type}

/-! ## Leaves -/

inductive Role where
  | idle
  | worker
  | chain
deriving DecidableEq

def role : Hook ε → Role
  | .noop => .idle
  | .chain _ _ => .chain
  | _ => .worker

mutual

/-- The hooks of a tree of chains that are no chains, in the order of their calls. -/
def leaves : Hook ε → List (Hook ε)
  | .chain _ hooks => leavesAll hooks
  | leaf => [leaf]

def leavesAll : List (Hook ε) → List (Hook ε)
  | [] => []
  | hook :: rest => hook.leaves ++ leavesAll rest

end

def works (hook : Hook ε) : Bool := hook.role ≠ .idle

def workers (hook : Hook ε) : List (Hook ε) := hook.leaves.filter works

theorem leaves_of_role {hook : Hook ε} (leaf : hook.role ≠ .chain) : hook.leaves = [hook] := by
  cases hook with
  | chain name hooks => exact (leaf rfl).elim
  | _ => rw [leaves]; simp

private theorem leavesAll_append (pre post : List (Hook ε)) :
    leavesAll (pre ++ post) = leavesAll pre ++ leavesAll post := by
  induction pre with
  | nil => simp [leavesAll]
  | cons hook rest ih => simp [leavesAll, ih]

mutual

theorem role_of_mem_leaves (hook : Hook ε) : ∀ leaf ∈ hook.leaves, leaf.role ≠ .chain := by
  cases hook with
  | chain name hooks => rw [leaves]; exact role_of_mem_leavesAll hooks
  | _ => simp [leaves, role]

theorem role_of_mem_leavesAll (hooks : List (Hook ε)) :
    ∀ leaf ∈ leavesAll hooks, leaf.role ≠ .chain := by
  cases hooks with
  | nil => simp [leavesAll]
  | cons hook rest =>
      rw [leavesAll, List.forall_mem_append]
      exact ⟨role_of_mem_leaves hook, role_of_mem_leavesAll rest⟩

end

private theorem leaves_flat (name : String) (hook : Hook ε) :
    (Hook.chain name hook.leaves).leaves = hook.leaves := by
  have flat : ∀ hooks : List (Hook ε), (∀ leaf ∈ hooks, leaf.role ≠ .chain) →
      leavesAll hooks = hooks := by
    intro hooks
    induction hooks with
    | nil => simp [leavesAll]
    | cons hook rest ih =>
        intro all
        rw [List.forall_mem_cons] at all
        rw [leavesAll, leaves_of_role all.1, ih all.2, List.singleton_append]
  rw [leaves, flat _ hook.role_of_mem_leaves]

/-! ## Calls of a tree -/

variable [Routine ε]

theorem role_call (hook : Hook ε) : hook.call.Ensures fun o => o.state.role = hook.role := by
  cases hook with
  | noop | counting calls =>
      rw [call]
      rfl
  | monitor m | custom x | chain name hooks =>
      rw [call]
      refine Program.ensures_then _ fun o => ?_
      cases o <;> rfl
  | antiOp | recording newestFirst =>
      rw [call]
      exact Program.ensures_then _ fun _ => rfl
  | nondetAntiOp | scheduled schedule =>
      rw [call]
      refine Program.ensures_then _ fun reply => ?_
      split
      · exact Program.ensures_then _ fun _ => rfl
      · rfl
  | failing period | tamper delta =>
      rw [call]
      exact Program.ensures_then _ fun _ => Program.ensures_then _ fun _ => rfl
  | signCheck =>
      rw [call]
      exact Program.ensures_then _ fun _ => Program.ensures_then _ fun _ =>
        Program.ensures_then _ fun _ => rfl

private theorem callAll_singleton (hook : Hook ε) :
    callAll [hook] = Outcome.map ([·]) <$> hook.call := by
  rw [callAll, map_eq_pure_bind]
  refine bind_congr fun o => ?_
  cases o with
  | returned hook' => rw [callAll]; rfl
  | panicked hook' message => rfl

private theorem call_leaf {hook : Hook ε} (leaf : hook.role ≠ .chain) :
    Outcome.map leaves <$> hook.call = callAll hook.leaves := by
  rw [leaves_of_role leaf, callAll_singleton, map_eq_pure_bind, map_eq_pure_bind]
  refine Program.bind_congr_of_ensures (hook.role_call.mono ?_)
  intro o kept
  have after : o.state.leaves = [o.state] := leaves_of_role (kept ▸ leaf)
  cases o with
  | returned hook' => rw [Outcome.map, show hook'.leaves = [hook'] from after, Outcome.map]
  | panicked hook' message => rw [Outcome.map, show hook'.leaves = [hook'] from after, Outcome.map]

mutual

/-- A tree of chains does what its leaves do, called one after the other. -/
theorem call_leaves (hook : Hook ε) : Outcome.map leaves <$> hook.call = callAll hook.leaves := by
  cases hook with
  | chain name hooks =>
      rw [call, leaves, ← callAll_leaves hooks, ← map_eq_pure_bind, ← comp_map]
      refine congrArg (· <$> callAll hooks) ?_
      funext o
      cases o <;> rfl
  | _ => exact call_leaf (by simp [role])

theorem callAll_leaves (hooks : List (Hook ε)) :
    Outcome.map leavesAll <$> callAll hooks = callAll (leavesAll hooks) := by
  cases hooks with
  | nil => rw [callAll, leavesAll, callAll]; rfl
  | cons hook rest =>
      rw [leavesAll, callAll_append, ← call_leaves hook, ← callAll_leaves rest, callAll]
      simp only [map_eq_pure_bind, bind_assoc, pure_bind]
      refine bind_congr fun o => ?_
      cases o with
      | panicked hook' message => rfl
      | returned hook' =>
          simp only [bind_assoc, pure_bind]
          refine bind_congr fun later => ?_
          cases later <;> rfl

end

/-- Hooks that do nothing can be left out. -/
private theorem callAll_filter (hooks : List (Hook ε)) :
    Outcome.map (List.filter works) <$> callAll hooks = callAll (hooks.filter works) := by
  induction hooks with
  | nil => rw [callAll, List.filter_nil, callAll]; rfl
  | cons hook rest ih =>
      by_cases idle : hook.role = .idle
      · have noop : hook = .noop := by
          cases hook <;> simp [role] at idle ⊢
        rw [noop, List.filter_cons_of_neg (by simp [works, role]), ← ih, callAll, call]
        simp only [map_eq_pure_bind, bind_assoc, pure_bind]
        refine bind_congr fun later => ?_
        cases later <;> rfl
      · rw [List.filter_cons_of_pos (by simpa [works] using idle), callAll, callAll, ← ih]
        simp only [map_eq_pure_bind, bind_assoc]
        refine Program.bind_congr_of_ensures (hook.role_call.mono ?_)
        intro o kept
        have still : o.state.works = true := by simpa [works, kept] using idle
        cases o with
        | panicked hook' message =>
            have still : hook'.works = true := still
            simp [Outcome.map, still]
        | returned hook' =>
            have still : hook'.works = true := still
            simp only [bind_assoc, pure_bind]
            refine bind_congr fun later => ?_
            cases later <;> simp [Outcome.map, still]

theorem call_workers (hook : Hook ε) :
    Outcome.map workers <$> hook.call = callAll hook.workers := by
  have both (o : Outcome (Hook ε)) :
      o.map workers = (o.map leaves).map (List.filter works) := (o.map_map _ _).symm
  rw [workers, ← callAll_filter, ← call_leaves, ← comp_map]
  exact congrArg (· <$> hook.call) (funext both)

/-! ## The effect of a call -/

section

variable {κ σ : Type} [CoinSource κ] [Receiver σ]

/-- Hooks that were called in order until one panicked: those before it have returned, and
those after it were not called. -/
def StopsAt (site : Site) (place : Nat) (message : String) (hooks hooks' : List (Hook ε))
    (b c : Bench κ σ) : Prop :=
  ∃ pre leaf post pre' leaf' mid, hooks = pre ++ leaf :: post ∧ hooks' = pre' ++ leaf' :: post ∧
    pre.length = place ∧ (callAll pre).run site b = (.returned pre', mid) ∧
    leaf.call.run site mid = (.panicked leaf' message, c)

theorem stopsAt_of_panicked {site : Site} {message : String} {hooks hooks' : List (Hook ε)}
    {b c : Bench κ σ} (h : (callAll hooks).run site b = (.panicked hooks' message, c)) :
    ∃ place, StopsAt site place message hooks hooks' b c := by
  induction hooks generalizing b hooks' with
  | nil =>
      rw [run_callAll_nil] at h
      cases h
  | cons hook rest ih =>
      rw [run_callAll_cons] at h
      cases called : hook.call.run site b with
      | mk outcome d =>
          rw [called] at h
          cases outcome with
          | panicked hook' own =>
              cases h
              exact ⟨0, [], hook, rest, [], hook', b, rfl, rfl, rfl, run_callAll_nil site b, called⟩
          | returned hook' =>
              cases later : (callAll rest).run site d with
              | mk outcome e =>
                  simp only [later] at h
                  cases outcome with
                  | returned rest' => cases h
                  | panicked rest' own =>
                      cases h
                      obtain ⟨place, pre, leaf, post, pre', leaf', mid, rfl, rfl, length, before,
                        stopped⟩ := ih later
                      refine ⟨place + 1, hook :: pre, leaf, post, hook' :: pre', leaf', mid, rfl,
                        rfl, by simp [length], ?_, stopped⟩
                      rw [run_callAll_cons, called]
                      simp [before, Outcome.map]

/-- The calls of two hooks leave the same bench. They end in the same way, with hooks that look the
same, and a panic comes from the same place in what is seen of them. -/
def SameEffect (view : Hook ε → List (Hook ε)) (site : Site) (b : Bench κ σ)
    (hook hook' : Hook ε) : Prop :=
  let called := b.callAs site.hook hook site.iteration
  let called' := b.callAs site.hook hook' site.iteration
  called.2 = called'.2 ∧ called.1.map view = called'.1.map view ∧
    ∀ h h' message, called.1 = .panicked h message → called'.1 = .panicked h' message →
      ∃ place, StopsAt site place message (view hook) (view h) b called.2 ∧
        StopsAt site place message (view hook') (view h') b called'.2

end

/-- What is seen of a hook is all that matters to its calls. -/
def Faithful (view : Hook ε → List (Hook ε)) : Prop :=
  ∀ hook, Outcome.map view <$> hook.call = callAll (view hook)

theorem Faithful.run_callAll {κ σ : Type} [CoinSource κ] [Receiver σ]
    {view : Hook ε → List (Hook ε)} (faithful : Faithful view) (site : Site) (hook : Hook ε)
    (b : Bench κ σ) : (callAll (view hook)).run site b =
      ((b.callAs site.hook hook site.iteration).1.map view,
        (b.callAs site.hook hook site.iteration).2) := by
  rw [← faithful hook, Program.run_map]
  rfl

theorem Faithful.sameEffect {κ σ : Type} [CoinSource κ] [Receiver σ]
    {view : Hook ε → List (Hook ε)} (faithful : Faithful view) {hook hook' : Hook ε}
    (same : view hook = view hook') (site : Site) (b : Bench κ σ) :
    SameEffect view site b hook hook' := by
  have both := faithful.run_callAll site hook b
  rw [same, faithful.run_callAll, Prod.mk.injEq] at both
  refine ⟨both.2.symm, both.1.symm, ?_⟩
  intro h h' message stops stops'
  have views : view h' = view h := by
    have ends := both.1
    rw [stops, stops'] at ends
    exact (Outcome.panicked.inj ends).1
  have panicked := faithful.run_callAll site hook b
  rw [stops] at panicked
  obtain ⟨place, stopsAt⟩ := stopsAt_of_panicked panicked
  refine ⟨place, stopsAt, ?_⟩
  rw [← same, views, both.2]
  exact stopsAt

/-- The chain of what is seen of a hook makes the requests of the hook. -/
theorem Faithful.carries {view : Hook ε → List (Hook ε)} (faithful : Faithful view)
    (name : String) : Routine.Carries fun hook : Hook ε => Hook.chain name (view hook) := by
  intro hook
  change Hook.call (.chain name (view hook)) = _
  rw [call, ← faithful hook, ← map_eq_pure_bind, ← comp_map]
  refine congrArg (· <$> hook.call) (funext fun o => ?_)
  exact o.map_map _ _

theorem Faithful.run {κ : Type} [CoinSource κ] {view : Hook ε → List (Hook ε)}
    (faithful : Faithful view) {hook hook' : Hook ε} (same : view hook = view hook')
    (names : hook.name = hook'.name) (r : Rig κ) (elapsed : Elapsed) (out : Outlets) :
    (r.run hook elapsed out).mapHook view = (r.run hook' elapsed out).mapHook view := by
  -- Both runs are runs of one and the same chain.
  have left : r.run (Hook.chain hook.name (view hook)) elapsed out = _ :=
    r.run_mapped (faithful.carries hook.name) rfl elapsed out
  have right : r.run (Hook.chain hook.name (view hook')) elapsed out = _ :=
    r.run_mapped (faithful.carries hook.name) names elapsed out
  rw [same, right] at left
  simp only [Aftermath.mapHook, Aftermath.mk.injEq, Hook.chain.injEq, true_and] at left ⊢
  exact ⟨left.1.symm, left.2.1.symm, left.2.2.1.symm, left.2.2.2.1.symm, left.2.2.2.2.symm⟩

/-! ## Regrouping -/

omit [Routine ε] in
private theorem workers_append (name : String) (pre post : List (Hook ε)) :
    (Hook.chain name (pre ++ post)).workers =
      (Hook.chain name pre).workers ++ (Hook.chain name post).workers := by
  simp only [workers, leaves, leavesAll_append, List.filter_append]

omit [Routine ε] in
private theorem workers_cons (name : String) (hook : Hook ε) (rest : List (Hook ε)) :
    (Hook.chain name (hook :: rest)).workers = hook.workers ++ (Hook.chain name rest).workers := by
  simp only [workers, leaves, leavesAll, List.filter_append]

omit [Routine ε]

/-- One step of regrouping, anywhere in a tree of chains: a hook that does nothing is put in, or
neighbours get a chain of their own, which is empty if there are none of them. -/
inductive Regrouped : Hook ε → Hook ε → Prop
  | noop (name : String) (pre post : List (Hook ε)) :
      Regrouped (.chain name (pre ++ post)) (.chain name (pre ++ .noop :: post))
  | wrap (name inner : String) (pre hooks post : List (Hook ε)) :
      Regrouped (.chain name (pre ++ (hooks ++ post)))
        (.chain name (pre ++ .chain inner hooks :: post))
  | within (name : String) (pre post : List (Hook ε)) {hook hook' : Hook ε}
      (inside : Regrouped hook hook') :
      Regrouped (.chain name (pre ++ hook :: post)) (.chain name (pre ++ hook' :: post))

private theorem workers_regrouped {hook hook' : Hook ε} (h : Regrouped hook hook') :
    hook.workers = hook'.workers := by
  induction h with
  | noop name pre post =>
      have nothing : (Hook.noop : Hook ε).workers = [] := rfl
      rw [workers_append, workers_append, workers_cons, nothing, List.nil_append]
  | wrap name inner pre hooks post =>
      have renamed : (Hook.chain inner hooks).workers = (Hook.chain name hooks).workers := rfl
      rw [workers_append, workers_append, workers_append, workers_cons, renamed]
  | within name pre post inside ih =>
      rw [workers_append, workers_append, workers_cons, workers_cons, ih]

/-- Any number of steps, forwards and backwards. -/
theorem workers_of_regrouped {hook hook' : Hook ε} (h : Relation.EqvGen Regrouped hook hook') :
    hook.workers = hook'.workers := by
  induction h with
  | rel _ _ step => exact workers_regrouped step
  | refl => rfl
  | symm _ _ _ ih => exact ih.symm
  | trans _ _ _ _ _ first second => exact first.trans second

/-! ## Building a chain -/

inductive Addition (ε : Type) where
  | andThen (hook : Hook ε)
  | push (hook : Hook ε)

namespace Addition

def hook : Addition ε → Hook ε
  | .andThen hook => hook
  | .push hook => hook

def apply (chain : Hook ε) : Addition ε → Hook ε
  | .andThen hook => chain.andThen hook
  | .push hook => chain.push hook

theorem foldl_apply (name : String) (hooks : List (Hook ε)) (additions : List (Addition ε)) :
    additions.foldl apply (.chain name hooks) = .chain name (hooks ++ additions.map hook) := by
  induction additions generalizing hooks with
  | nil => simp
  | cons first rest ih =>
      have added : apply (.chain name hooks) first = .chain name (hooks ++ [first.hook]) := by
        cases first <;> rfl
      rw [List.foldl_cons, added, ih, List.map_cons, List.append_assoc, List.singleton_append]

end Addition

end Hook

/-! ## Runs -/

namespace Rig

open Hook

variable {κ ε : Type} [CoinSource κ] [Routine ε]

/-- How chains are nested makes no difference: a tree of chains has the effect of the one chain of
its leaves, and regrouping it keeps that effect. -/
theorem nesting_is_immaterial (r : Rig κ) :
    (∀ (σ : Type) [Receiver σ] (site : Site) (b : Bench κ σ) (name : String) (hook : Hook ε),
        SameEffect leaves site b hook (.chain name hook.leaves)) ∧
      (∀ (σ : Type) [Receiver σ] (site : Site) (b : Bench κ σ) (hook hook' : Hook ε),
        Relation.EqvGen Regrouped hook hook' → SameEffect workers site b hook hook') ∧
      (∀ (hook hook' : Hook ε) (elapsed : Elapsed) (out : Outlets), hook.name = hook'.name →
        (hook.leaves = hook'.leaves →
          (r.run hook elapsed out).mapHook leaves = (r.run hook' elapsed out).mapHook leaves) ∧
        (Relation.EqvGen Regrouped hook hook' →
          (r.run hook elapsed out).mapHook workers = (r.run hook' elapsed out).mapHook workers)) ∧
      ∀ (name : String) (additions : List (Addition ε)),
        additions.foldl Addition.apply (.chain name []) =
          .chain name (additions.map Addition.hook) := by
  refine ⟨?_, ?_, ?_, ?_⟩
  · intro σ _ site b name hook
    exact Faithful.sameEffect call_leaves (leaves_flat name hook).symm site b
  · intro σ _ site b hook hook' regrouped
    exact Faithful.sameEffect call_workers (workers_of_regrouped regrouped) site b
  · intro hook hook' elapsed out names
    constructor
    · intro same
      exact Faithful.run call_leaves same names r elapsed out
    · intro regrouped
      exact Faithful.run call_workers (workers_of_regrouped regrouped) names r elapsed out
  · intro name additions
    exact Addition.foldl_apply name [] additions

/-- A panic two chains deep, with a hook that does nothing and an empty chain put in before it. -/
theorem nesting_is_immaterial_panicking :
    let r : Rig Coin := { settings := .withIterations 3, coin := .fixed true }
    let stop : Script := ⟨"stop", [⟨.among [1], [.draw, .panic "stopped"]⟩]⟩
    let flat : Hook Script := .chain "outer" [.antiOp, .custom stop, .counting 0]
    let nested : Hook Script :=
      .chain "outer" [.chain "inner" [.antiOp, .chain "deep" [.custom stop]], .counting 0]
    let padded : Hook Script :=
      .chain "outer" [.chain "inner" [.noop, .antiOp, .chain "deep" [.custom stop]],
        .chain "empty" [], .counting 0]
    let site : Site := ⟨"outer", .ofNat 1⟩
    let b : Bench Coin Ledger := { coin := .fixed true, sink := {} }
    nested.leaves = flat.leaves ∧ Relation.EqvGen Regrouped nested padded ∧
      (b.callAs "outer" nested (.ofNat 1)).1 = .panicked nested "stopped" ∧
      (∃ place, StopsAt site place "stopped" nested.workers nested.workers b
        (b.callAs "outer" nested (.ofNat 1)).2) ∧
      (r.run nested {} {}).mapHook leaves = (r.run flat {} {}).mapHook leaves ∧
      (r.run nested {} {}).mapHook workers = (r.run padded {} {}).mapHook workers := by
  intro r stop flat nested padded site b
  have once : Regrouped nested (.chain "outer"
      [.chain "inner" [.noop, .antiOp, .chain "deep" [.custom stop]], .counting 0]) :=
    .within "outer" [] [.counting 0] (.noop "inner" [] [.antiOp, .chain "deep" [.custom stop]])
  have twice : Regrouped (.chain "outer"
      [.chain "inner" [.noop, .antiOp, .chain "deep" [.custom stop]], .counting 0]) padded :=
    .wrap "outer" "empty" [.chain "inner" [.noop, .antiOp, .chain "deep" [.custom stop]]] []
      [.counting 0]
  have regrouped : Relation.EqvGen Regrouped nested padded :=
    .trans _ _ _ (.rel _ _ once) (.rel _ _ twice)
  have stopped : (b.callAs "outer" nested (.ofNat 1)).1 = .panicked nested "stopped" := by
    simp only [b, nested, stop]
    rfl
  have stopped' : (b.callAs "outer" padded (.ofNat 1)).1 = .panicked padded "stopped" := by
    simp only [b, padded, stop]
    rfl
  obtain ⟨-, effects, runs, -⟩ := nesting_is_immaterial (ε := Script) r
  obtain ⟨-, -, places⟩ := effects Ledger site b nested padded regrouped
  obtain ⟨place, stops, -⟩ := places nested padded "stopped" stopped stopped'
  exact ⟨rfl, regrouped, stopped, ⟨place, stops⟩, (runs nested flat {} {} rfl).1 rfl,
    (runs nested padded {} {} rfl).2 regrouped⟩

end Rig

end HookRig
