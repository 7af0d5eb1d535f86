import HookRig.Proofs.Negations
import HookRig.Proofs.Nesting
import Mathlib.Algebra.Ring.Int.Units
import Mathlib.Tactic.Ring

/-! # Chains that act on the sum as affine maps

Some hooks do the same to the sum at every call: they leave it alone, negate it, or add a
constant. A chain of such hooks, however nested, maps the sum `x` to `s * x + c` modulo
`2 ^ 64`, with a sign `s` and an offset `c` that are read off its leaves in order. A run of it
ends with a sum that is known in closed form.
-/

namespace HookRig

/-- What a hook does to the sum, if that is the same at every call. -/
inductive Effect where
  | keep
  | negate
  | add (delta : Int64)
deriving DecidableEq

def Effect.act : Effect → Int64 → Int64
  | .keep, x => x
  | .negate, x => -x
  | .add delta, x => x + delta

/-- A map `x ↦ sign * x + offset`. -/
structure Affine where
  sign : ℤˣ := 1
  offset : ℤ := 0
deriving DecidableEq

namespace Affine

def value (f : Affine) (x : ℤ) : ℤ := f.sign * x + f.offset

def andThen (f : Affine) : Effect → Affine
  | .keep => f
  | .negate => ⟨-f.sign, -f.offset⟩
  | .add delta => ⟨f.sign, f.offset + delta.toInt⟩

/-- What zero becomes when the map is applied, and then the number of its application added, so
many times. -/
def total (f : Affine) (n : ℕ) : ℤ :=
  if f.sign = 1 then n * f.offset + n * (n - 1) / 2
  else n / 2 + if n % 2 = 1 then f.offset else 0

theorem act_modEq {f : Affine} {x : ℤ} {y : Int64} (h : y.toInt ≡ f.value x [ZMOD 2 ^ 64])
    (e : Effect) : (e.act y).toInt ≡ (f.andThen e).value x [ZMOD 2 ^ 64] := by
  cases e with
  | keep => exact h
  | negate =>
      have negated : (f.andThen .negate).value x = -f.value x := by
        simp only [andThen, value, Units.val_neg]
        ring
      rw [negated]
      exact (toInt_neg_modEq y).trans h.neg
  | add delta =>
      have shifted : (f.andThen (.add delta)).value x = f.value x + delta.toInt := by
        simp only [andThen, value]
        ring
      rw [shifted]
      exact (toInt_add_modEq y delta).trans (h.add_right _)

theorem foldl_act_modEq {f : Affine} {x : ℤ} {y : Int64} (h : y.toInt ≡ f.value x [ZMOD 2 ^ 64])
    (effects : List Effect) :
    (effects.foldl (fun z e => e.act z) y).toInt ≡
      (effects.foldl andThen f).value x [ZMOD 2 ^ 64] := by
  induction effects generalizing f y with
  | nil => exact h
  | cons e rest ih => exact ih (act_modEq h e)

theorem total_zero (f : Affine) : f.total 0 = 0 := by
  simp [total]

theorem total_succ (f : Affine) (n : ℕ) : f.total (n + 1) = f.value (f.total n) + n := by
  unfold total value
  rcases Int.units_eq_one_or f.sign with plus | minus
  · simp only [plus, if_pos, Units.val_one, triangle_succ]
    push_cast
    ring
  · have turned : f.sign ≠ 1 := by
      rw [minus]
      decide
    rw [if_neg turned, if_neg turned, minus, Units.val_neg, Units.val_one]
    rcases Nat.mod_two_eq_zero_or_one n with even | odd
    · rw [if_pos (show (n + 1) % 2 = 1 by omega), if_neg (show ¬ n % 2 = 1 by omega)]
      omega
    · rw [if_neg (show ¬ (n + 1) % 2 = 1 by omega), if_pos odd]
      omega

end Affine

theorem Bench.sum_check {κ σ : Type} [CoinSource κ] [Receiver σ] (b : Bench κ σ) (site : Site)
    (holds : Bool) (message : String) :
    (b.answer site (.check holds message)).2.sum = b.sum := by
  cases holds <;> rfl

namespace Hook

variable {ε : Type}

def effect? : Hook ε → Option Effect
  | .noop | .counting _ | .failing _ | .recording _ => some .keep
  | .antiOp | .signCheck | .scheduled .always => some .negate
  | .scheduled (.among []) => some .keep
  | .tamper delta => some (.add delta)
  | _ => none

def Steady (hook : Hook ε) : Prop := ∀ leaf ∈ hook.leaves, leaf.effect?.isSome

def affine (hook : Hook ε) : Affine := (hook.leaves.filterMap effect?).foldl Affine.andThen {}

theorem Steady.effects {hook : Hook ε} (steady : hook.Steady) :
    hook.leaves.map effect? = (hook.leaves.filterMap effect?).map some := by
  rw [List.map_filterMap_some_eq_filter_map_isSome, List.filter_eq_self.mpr]
  intro e member
  rcases List.mem_map.mp member with ⟨leaf, here, rfl⟩
  exact steady leaf here

variable {κ σ : Type} [Routine ε] [CoinSource κ] [Receiver σ]

theorem run_effect {leaf : Hook ε} {e : Effect} (h : leaf.effect? = some e) (site : Site)
    (b : Bench κ σ) :
    ∃ leaf' c, leaf.call.run site b = (.returned leaf', c) ∧ leaf'.effect? = some e ∧
      c.sum = e.act b.sum := by
  cases leaf with
  | noop | counting calls | recording newestFirst | antiOp | tamper delta =>
      cases h
      rw [call]
      exact ⟨_, _, rfl, rfl, rfl⟩
  | failing period =>
      cases h
      rw [call]
      exact ⟨_, _, rfl, rfl, b.sum_check site _ _⟩
  | signCheck =>
      cases h
      rw [call]
      exact ⟨_, _, rfl, rfl, b.negate.countNegation.sum_check site _ _⟩
  | scheduled schedule =>
      rw [run_scheduled]
      cases schedule with
      | always =>
          cases h
          exact ⟨_, _, rfl, rfl, rfl⟩
      | among indices =>
          cases indices with
          | cons index rest => cases h
          | nil =>
              cases h
              exact ⟨_, _, rfl, rfl, rfl⟩
  | nondetAntiOp | monitor m | custom x | chain name hooks => cases h

theorem run_effects {leaves : List (Hook ε)} {effects : List Effect}
    (h : leaves.map effect? = effects.map some) (site : Site) (b : Bench κ σ) :
    ∃ leaves' c, (callAll leaves).run site b = (.returned leaves', c) ∧
      leaves'.map effect? = effects.map some ∧
      c.sum = effects.foldl (fun x e => e.act x) b.sum := by
  induction leaves generalizing effects b with
  | nil =>
      cases effects with
      | nil => exact ⟨[], b, run_callAll_nil site b, rfl, rfl⟩
      | cons e rest => cases h
  | cons leaf later ih =>
      cases effects with
      | nil => cases h
      | cons e rest =>
          rw [List.map_cons, List.map_cons, List.cons.injEq] at h
          rcases run_effect h.1 site b with ⟨leaf', c, called, same, sum⟩
          rcases ih h.2 c with ⟨later', d, calledAll, sames, sums⟩
          refine ⟨leaf' :: later', d, ?_, ?_, ?_⟩
          · rw [run_callAll_cons, called]
            simp [calledAll, Outcome.map]
          · simp [same, sames]
          · rw [sums, sum, List.foldl_cons]

/-- A tree of chains keeps the effects of its leaves, and each call does to the sum what they do one
after the other. -/
theorem call_of_effects {hook : Hook ε} {effects : List Effect}
    (h : hook.leaves.map effect? = effects.map some) (name : String) (i : Iteration)
    (b : Bench κ σ) :
    ∃ hook' c, b.callAs name hook i = (.returned hook', c) ∧
      hook'.leaves.map effect? = effects.map some ∧
      c.sum.toInt ≡ (effects.foldl Affine.andThen {}).value b.sum.toInt [ZMOD 2 ^ 64] := by
  have found : b.sum.toInt ≡ ({} : Affine).value b.sum.toInt [ZMOD 2 ^ 64] := by
    simp [Affine.value]
  have acted := Affine.foldl_act_modEq found effects
  rcases run_effects h ⟨name, i⟩ b with ⟨leaves', c, called, same, sum⟩
  rw [← sum] at acted
  rw [Faithful.run_callAll call_leaves, Prod.mk.injEq] at called
  cases outcome : b.callAs name hook i with
  | mk o d =>
      rw [outcome] at called
      cases o with
      | panicked hook' message => cases called.1
      | returned hook' =>
          rcases called with ⟨leaves, rfl⟩
          cases leaves
          exact ⟨hook', d, rfl, same, acted⟩

end Hook

namespace Progress

variable {ε κ σ : Type}

structure Acts (effects : List Effect) (p : Progress κ σ (Hook ε)) : Prop where
  leaves : p.hook.leaves.map Hook.effect? = effects.map some
  sum : p.bench.sum.toInt ≡ (effects.foldl Affine.andThen {}).total p.calls [ZMOD 2 ^ 64]

theorem Acts.step [Routine ε] [CoinSource κ] [Receiver σ] {effects : List Effect}
    {p : Progress κ σ (Hook ε)} (h : p.Acts effects) (small : p.calls < 2 ^ 63) (name : String)
    (keep : Option Nat) : ∃ q, p.step name keep = .returned q ∧ q.Acts effects := by
  rcases Hook.call_of_effects h.leaves name p.index p.bench with ⟨hook, c, called, leaves, left⟩
  refine ⟨p.complete keep hook c, step_of_call called, leaves, ?_⟩
  have added := toInt_add_modEq c.sum p.index.addend
  rw [Progress.index, Iteration.toInt_addend_ofNat small] at added
  rw [calls_complete, Affine.total_succ]
  refine added.trans (Int.ModEq.add_right _ (left.trans ?_))
  exact (h.sum.mul_left _).add_right _

end Progress

namespace Rig

variable {ε : Type} [Routine ε]

/-- A tree of chains whose leaves keep the sum, negate it or add a constant acts on it as an affine
map modulo `2 ^ 64`, and its run ends with the value of a closed form. -/
theorem steady_chain_is_affine (hook : Hook ε) (steady : hook.Steady) :
    (∀ (κ σ : Type) [CoinSource κ] [Receiver σ] (b : Bench κ σ) (name : String) (i : Iteration),
        ∃ hook' c, b.callAs name hook i = (.returned hook', c) ∧
          c.sum.toInt ≡ hook.affine.sign * b.sum.toInt + hook.affine.offset [ZMOD 2 ^ 64]) ∧
      ∀ (κ : Type) [CoinSource κ] (r : Rig κ) (elapsed : Elapsed) (out : Outlets),
        r.settings.problem? = none →
        let n := r.settings.iterations.toNat
        ∃ s, (r.run hook elapsed out).ending = .completed s ∧
          s.sum.toInt ≡
            (if hook.affine.sign = 1 then n * hook.affine.offset + n * (n - 1) / 2
              else n / 2 + if n % 2 = 1 then hook.affine.offset else 0) [ZMOD 2 ^ 64] := by
  constructor
  · intro κ σ _ _ b name i
    rcases Hook.call_of_effects steady.effects name i b with ⟨hook', c, called, -, sum⟩
    exact ⟨hook', c, called, sum⟩
  · intro κ _ r elapsed out valid n
    have small : n < 2 ^ 63 := Settings.iterations_lt valid
    have start : (Progress.start hook r.coin ({} : Ledger)).Acts
        (hook.leaves.filterMap Hook.effect?) := by
      constructor
      · exact steady.effects
      · rw [show (Progress.start hook r.coin ({} : Ledger)).calls = 0 from rfl, Affine.total_zero]
        rfl
    rcases Progress.advance_returns
      (fun p h room => h.step (Nat.lt_trans room small) hook.name r.settings.keep)
      start (Nat.le_of_eq (Nat.zero_add n)) with ⟨p, run, acts, calls⟩
    have returned : r.onLedger hook = .returned p := run
    have sum := acts.sum
    rw [calls, show (Progress.start hook r.coin ({} : Ledger)).calls + n = n from Nat.zero_add n]
      at sum
    rw [run_of_returned returned]
    exact ⟨_, rfl, sum⟩

/-- The order of the leaves matters: a negation turns what was added before it, and not what is
added after it. The least sum, which is its own negation, is among what is added. -/
theorem steady_chain_is_affine_nested :
    let hook : Hook Script :=
      .chain "outer" [.tamper 10, .chain "inner" [.signCheck, .recording []],
        .chain "empty" [], .tamper Int64.minValue, .scheduled .never, .failing 2]
    let r : Rig Coin := { settings := .withIterations 5, coin := .fixed true }
    let b : Bench Coin Ledger := { coin := .fixed true, sink := {} }
    hook.Steady ∧ hook.affine = ⟨-1, -10 - 2 ^ 63⟩ ∧ r.settings.problem? = none ∧
      (∃ hook' c, b.callAs "outer" hook .zero = (.returned hook', c) ∧
        c.sum.toInt ≡ -10 - 2 ^ 63 [ZMOD 2 ^ 64]) ∧
      ∃ s, (r.run hook {} {}).ending = .completed s ∧ s.sum.toInt ≡ -8 - 2 ^ 63 [ZMOD 2 ^ 64] := by
  intro hook r b
  have steady : hook.Steady := by
    unfold Hook.Steady
    decide
  have affine : hook.affine = ⟨-1, -10 - 2 ^ 63⟩ := by decide
  have valid : r.settings.problem? = none := Settings.problem?_withIterations (by decide)
  rcases steady_chain_is_affine hook steady with ⟨calls, runs⟩
  rcases calls Coin Ledger b "outer" .zero with ⟨hook', c, called, left⟩
  rcases runs Coin r {} {} valid with ⟨s, ending, sum⟩
  have five : r.settings.iterations.toNat = 5 := by decide
  rw [affine] at left sum
  rw [five, if_neg (by decide), if_pos (by decide)] at sum
  exact ⟨steady, affine, valid, ⟨hook', c, called, left⟩, s, ending, sum⟩

end Rig

end HookRig
