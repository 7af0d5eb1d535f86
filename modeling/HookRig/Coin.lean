import HookRig.Keystream.ChaCha
import HookRig.Binary64.Basic

/-! # Coins

A coin is a source of Booleans. The seeded coin reads a keystream and compares
each word with a threshold, the fixed coin shows one side, and the scripted coin
repeats a script.
-/

namespace HookRig

class CoinSource (κ : Type) where
  flip : κ → Bool × κ

/-- A coin with a bias, on the keystream of a seed. -/
structure SeededCoin where
  seed : UInt64
  bias : Binary64
  /-- How many words of the keystream were drawn. -/
  drawn : Nat := 0
deriving DecidableEq

namespace SeededCoin

/-- A finite bias is brought into the unit interval, and any other becomes one half. -/
def withBias (seed : UInt64) (bias : Binary64) : SeededCoin where
  seed := seed
  bias := if bias.isFinite then bias.clampUnit else Binary64.half

def fair (seed : UInt64) : SeededCoin := withBias seed Binary64.half

/-- Words below the threshold count as one. -/
def threshold (bias : Binary64) : Nat := bias.magnitude / Nat.pow 2 (Binary64.scale - 64)

/-- A certain coin draws nothing. -/
def flip (c : SeededCoin) : Bool × SeededCoin :=
  if c.bias = Binary64.one then (true, c)
  else ((Keystream.draw c.seed c.drawn).toNat < threshold c.bias, { c with drawn := c.drawn + 1 })

instance : CoinSource SeededCoin := ⟨flip⟩

end SeededCoin

/-- A coin that repeats a script; it shows `false` if the script is empty. -/
structure ScriptedCoin where
  script : Array Bool
  draws : UInt64 := 0
deriving DecidableEq

namespace ScriptedCoin

def ofInts (ints : List Int) : ScriptedCoin := { script := (ints.map (· != 0)).toArray }

def flip (c : ScriptedCoin) : Bool × ScriptedCoin :=
  (c.script[c.draws.toNat % c.script.size]?.getD false, { c with draws := c.draws + 1 })

instance : CoinSource ScriptedCoin := ⟨flip⟩

end ScriptedCoin

inductive Coin where
  | seeded (coin : SeededCoin)
  | fixed (side : Bool)
  | scripted (coin : ScriptedCoin)
deriving DecidableEq

namespace Coin

def flip : Coin → Bool × Coin
  | .seeded c => c.flip.map id .seeded
  | .fixed side => (side, .fixed side)
  | .scripted c => c.flip.map id .scripted

instance : CoinSource Coin := ⟨flip⟩

end Coin

/-- The sides shown by `n` flips in a row, and the coin after them. -/
def flips {κ : Type} [CoinSource κ] : Nat → κ → List Bool × κ
  | 0, c => ([], c)
  | n + 1, c =>
      let (side, c') := CoinSource.flip c
      let (rest, last) := flips n c'
      (side :: rest, last)

theorem flips_succ {κ : Type} [CoinSource κ] (n : Nat) (c : κ) :
    flips (n + 1) c =
      ((flips n c).1 ++ [(CoinSource.flip (flips n c).2).1],
        (CoinSource.flip (flips n c).2).2) := by
  induction n generalizing c with
  | zero => rfl
  | succ n ih =>
      have first (k : Nat) : flips (k + 1) c = ((CoinSource.flip c).1 ::
        (flips k (CoinSource.flip c).2).1, (flips k (CoinSource.flip c).2).2) := rfl
      rw [first, ih, first]
      rfl

theorem length_flips {κ : Type} [CoinSource κ] (n : Nat) (c : κ) : (flips n c).1.length = n := by
  induction n with
  | zero => rfl
  | succ n ih => simp [flips_succ, ih]

/-- The side at a place is the one that the coin shows after the flips before it. -/
theorem getElem?_flips {κ : Type} [CoinSource κ] {n i : Nat} (h : i < n) (c : κ) :
    (flips n c).1[i]? = some (CoinSource.flip (flips i c).2).1 := by
  induction n with
  | zero => contradiction
  | succ n ih =>
      rw [flips_succ]
      by_cases last : i = n
      · simp [last, length_flips]
      · have earlier : i < n := by omega
        rw [List.getElem?_append_left (by rw [length_flips]; exact earlier)]
        exact ih earlier

end HookRig
