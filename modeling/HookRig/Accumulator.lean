/-! # The accumulator and its indices

The accumulator is a signed 64-bit number. Between two hook calls the index of
the finished iteration is added to it. Arithmetic is modulo `2 ^ 64`, and an
addition whose stored result is not the exact sum is recognised.
-/

namespace HookRig

structure Iteration where
  index : UInt64
deriving DecidableEq

namespace Iteration

def zero : Iteration := ⟨0⟩

/-- The index of the iteration that follows `n` others. -/
def ofNat (n : Nat) : Iteration := ⟨UInt64.ofNat n⟩

instance : LE Iteration := ⟨fun i j => i.index ≤ j.index⟩

instance (i j : Iteration) : Decidable (i ≤ j) := inferInstanceAs (Decidable (i.index ≤ j.index))

/-- What the index adds to the accumulator: an index past the largest signed
number counts as that number. -/
def addend (i : Iteration) : Int64 :=
  if i.index ≤ Int64.maxValue.toUInt64 then i.index.toInt64 else Int64.maxValue

/-- The index after this one; the last index is followed by zero. -/
def next (i : Iteration) : Iteration := ⟨i.index + 1⟩

end Iteration

structure Accumulator where
  value : Int64
deriving DecidableEq

namespace Accumulator

def zero : Accumulator := ⟨0⟩

/-- The least number is its own negation. -/
def negate (a : Accumulator) : Accumulator := ⟨-a.value⟩

def addIndex (a : Accumulator) (i : Iteration) : Accumulator := ⟨a.value + i.addend⟩

/-- Adding the index does not give the exact sum. -/
def wraps (a : Accumulator) (i : Iteration) : Bool :=
  (a.addIndex i).value.toInt ≠ a.value.toInt + i.addend.toInt

@[simp] theorem value_negate (a : Accumulator) : a.negate.value = -a.value := rfl

@[simp] theorem value_addIndex (a : Accumulator) (i : Iteration) :
    (a.addIndex i).value = a.value + i.addend := rfl

end Accumulator

end HookRig
