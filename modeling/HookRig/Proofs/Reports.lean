import HookRig.Proofs.Loop

/-! # What calls report

A call reports failed checks and nothing else: each under the name and the index
of the call, in the order of the checks, and each counted.
-/

namespace HookRig

namespace Diagnostic

def isAssertion : Diagnostic → Bool
  | .assertion _ _ _ => true
  | .internal _ => false

def failures (site : Site) (messages : List String) : List Diagnostic :=
  messages.map (.assertion site.iteration site.hook)

end Diagnostic

def complaint (holds : Bool) (message : String) : List String := if holds then [] else [message]

theorem length_complaint (holds : Bool) (message : String) :
    (complaint holds message).length = if holds then 0 else 1 := by
  cases holds <;> rfl

structure Exchange where
  request : Request
  reply : request.Reply

namespace Exchange

def complaints (e : Exchange) : List String :=
  match e.request with
  | .check holds message => complaint holds message
  | _ => []

end Exchange

/-- What a program asks of a bench, in order, and what it is told. -/
def Program.exchanges {κ σ α : Type} [CoinSource κ] [Receiver σ] (site : Site) :
    Program α → Bench κ σ → List Exchange
  | .done _, _ => []
  | .ask r next, b =>
      ⟨r, (b.answer site r).1⟩ :: (next (b.answer site r).1).exchanges site (b.answer site r).2

namespace Bench

variable {κ : Type}

/-- All that happened to the diagnostics and the count of failures between two states
of a bench. -/
structure Reported (site : Site) (messages : List String) (b c : Bench κ Ledger) : Prop where
  diagnostics : c.diagnostics = b.diagnostics ++ Diagnostic.failures site messages
  failures : c.counters.failures = b.counters.failures + .ofNat messages.length

theorem Reported.nothing (site : Site) {b c : Bench κ Ledger} (sink : c.sink = b.sink)
    (failures : c.counters.failures = b.counters.failures) : Reported site [] b c := by
  refine ⟨?_, failures.trans (UInt64.add_zero _).symm⟩
  simp [Bench.diagnostics, sink, Diagnostic.failures]

theorem Reported.trans {site : Site} {first second : List String} {b c d : Bench κ Ledger}
    (h : Reported site first b c) (h' : Reported site second c d) :
    Reported site (first ++ second) b d := by
  constructor
  · rw [h'.diagnostics, h.diagnostics, List.append_assoc, Diagnostic.failures,
      Diagnostic.failures, Diagnostic.failures, List.map_append]
  · rw [h'.failures, h.failures, List.length_append, UInt64.ofNat_add, UInt64.add_assoc]

variable [CoinSource κ]

theorem reported_check (site : Site) (b : Bench κ Ledger) (holds : Bool) (message : String) :
    Reported site (complaint holds message) b (b.answer site (.check holds message)).2 := by
  cases holds with
  | true => exact .nothing site rfl rfl
  | false => exact ⟨diagnostics_report _ _, rfl⟩

end Bench

namespace Progress

variable {κ η : Type}

theorem internal_of_internalCheck {σ : Type} (p : Progress κ σ η) :
    ∀ d ∈ p.internalCheck.toList, d.isAssertion = false := by
  intro d member
  rw [Option.mem_toList, internalCheck, Option.map_eq_some_iff] at member
  obtain ⟨first, -, rfl⟩ := member
  rfl

/-- There is at most one diagnostic of the run itself, so its count is exact. -/
theorem internalFailures_eq {σ : Type} (p : Progress κ σ η) :
    p.metrics.internalFailures.toNat = p.internalCheck.toList.length :=
  UInt64.toNat_ofNat_of_lt' (Nat.lt_of_le_of_lt Option.length_toList_le (by decide))

end Progress

end HookRig
