import HookRig.Reporting.Diagnostic
import HookRig.Reporting.Journal

/-! # Where diagnostics go

A diagnostic is either written to the journal as a warning or kept in a buffer.
Buffers are reached through handles; handles made from one another share their
buffer, and a fresh handle has a buffer of its own.
-/

namespace HookRig

structure Buffers where
  /-- The contents of each buffer, newest first. -/
  contents : Array (List Diagnostic) := #[]
  /-- The buffer of each handle. -/
  owner : Array Nat := #[]

namespace Buffers

/-- The number of handles, which is also the next one. -/
def size (b : Buffers) : Nat := b.owner.size

/-- A new handle with a buffer of its own. -/
def fresh (b : Buffers) : Buffers :=
  ⟨b.contents.push [], b.owner.push b.contents.size⟩

/-- A new handle for the buffer of handle `h`. -/
def share (b : Buffers) (h : Nat) : Buffers :=
  { b with owner := b.owner.push (b.owner[h]?.getD b.contents.size) }

def report (b : Buffers) (h : Nat) (d : Diagnostic) : Buffers :=
  match b.owner[h]? with
  | some buffer => { b with contents := b.contents.modify buffer (d :: ·) }
  | none => b

def diagnostics (b : Buffers) (h : Nat) : List Diagnostic :=
  match b.owner[h]? with
  | some buffer => (b.contents[buffer]?.getD []).reverse
  | none => []

def length (b : Buffers) (h : Nat) : Nat :=
  match b.owner[h]? with
  | some buffer => (b.contents[buffer]?.getD []).length
  | none => 0

def isEmpty (b : Buffers) (h : Nat) : Bool := b.length h = 0

end Buffers

inductive Sink where
  | journal
  | buffer (handle : Nat)
deriving DecidableEq

/-- All that a run's output goes to. -/
structure Outlets where
  journal : Journal := {}
  buffers : Buffers := {}

namespace Outlets

def log (o : Outlets) (level : Level) (target text : String) : Outlets :=
  { o with journal := o.journal.log ⟨level, target, text⟩ }

def report (o : Outlets) (d : Diagnostic) : Sink → Outlets
  | .journal => o.log .warn "artbench::assert" d.text
  | .buffer h => { o with buffers := o.buffers.report h d }

end Outlets

/-- A sink together with the outlets it writes to. -/
structure Delivery where
  sink : Sink
  outlets : Outlets

namespace Delivery

def receive (v : Delivery) (d : Diagnostic) : Delivery :=
  { v with outlets := v.outlets.report d v.sink }

instance : Receiver Delivery := ⟨receive⟩

end Delivery

end HookRig
