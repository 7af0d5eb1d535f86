import HookRig.Proofs.MonitoredChain

/-! # The monitor driven by hand

By hand a monitor can be called at any index and in any order, with or without the addition
of the index, and the sum can be overwritten in between. Whatever is done, the shadow of the
monitor is its last call, and its parity is that of its count. What a call reports therefore
depends on the call before it and on the sum it finds, and on nothing else.
-/

namespace HookRig

inductive Move where
  | write (sum : Int64)
  /-- A call without the addition of its index. -/
  | call (i : Iteration)
  /-- A call and the addition of its index. -/
  | step (i : Iteration)

def Move.index? : Move → Option Iteration
  | .write _ => none
  | .call i => some i
  | .step i => some i

structure HandCall extends Visit where
  iteration : Iteration

namespace HandCall

/-- What is to be said of a call, given the call before it. The last index of all is followed
by none, and an index that is too large for a sum adds the largest sum. -/
def due (previous : Option HandCall) (i : Iteration) (found : Int64) : List String :=
  if i = .zero then complaint (found = 0) "accumulator not zero at start of run"
  else match previous with
    | none => []
    | some p =>
        complaint (i.index.toNat = p.iteration.index.toNat + 1)
          "iteration does not follow the previous call" ++
        complaint
          (found.toInt ≡ p.left.toInt + min p.iteration.index.toNat (2 ^ 63 - 1) [ZMOD 2 ^ 64])
          "accumulator diverged from shadow prediction"

def Legal (previous : Option HandCall) (c : HandCall) : Prop :=
  (c.iteration = .zero → c.found = 0) ∧
    (c.iteration ≠ .zero → ∀ p, previous = some p →
      c.iteration.index.toNat = p.iteration.index.toNat + 1 ∧
        c.found.toInt ≡ p.left.toInt + min p.iteration.index.toNat (2 ^ 63 - 1) [ZMOD 2 ^ 64])

theorem due_eq_nil_iff (previous : Option HandCall) (c : HandCall) :
    due previous c.iteration c.found = [] ↔ c.Legal previous := by
  unfold due Legal complaint
  by_cases zero : c.iteration = .zero
  · simp [zero]
  · cases previous with
    | none => simp [zero]
    | some p => simp [zero]

theorem parity_notMem_due (previous : Option HandCall) (i : Iteration) (found : Int64) :
    "state disagrees with negation parity" ∉ due previous i found := by
  unfold due complaint
  split
  · split <;> simp
  · split
    · simp
    · simp only [List.mem_append, not_or]
      constructor <;> split <;> simp

end HandCall

structure Session (κ η : Type) where
  hook : η
  bench : Bench κ Ledger
  calls : List HandCall := []

namespace Session

section

variable {κ η : Type} [CoinSource κ] [Routine η]

def handCall (s : Session κ η) (i : Iteration) : HandCall :=
  let after := (s.bench.call s.hook i).2
  { iteration := i
    found := s.bench.sum
    left := after.sum
    reported := after.diagnostics.drop s.bench.diagnostics.length }

def after (s : Session κ η) : Move → Session κ η
  | .write sum => { s with bench := s.bench.set sum }
  | .call i =>
      let (outcome, bench) := s.bench.call s.hook i
      { hook := outcome.state, bench, calls := s.calls ++ [s.handCall i] }
  | .step i =>
      let (outcome, bench) := s.bench.step s.hook i
      { hook := outcome.state, bench, calls := s.calls ++ [s.handCall i] }

def through (s : Session κ η) (moves : List Move) : Session κ η := moves.foldl after s

theorem iterations_after (s : Session κ η) (move : Move) :
    (s.after move).calls.map (·.iteration) =
      s.calls.map (·.iteration) ++ move.index?.toList := by
  cases move <;> simp [after, handCall, Move.index?]

theorem iterations_through (s : Session κ η) (moves : List Move) :
    (s.through moves).calls.map (·.iteration) =
      s.calls.map (·.iteration) ++ moves.filterMap Move.index? := by
  induction moves generalizing s with
  | nil => simp [through]
  | cons move rest ih =>
      have later := ih (s.after move)
      rw [iterations_after, List.append_assoc] at later
      refine later.trans ?_
      cases move <;> simp [Move.index?, List.filterMap_cons]

end

variable {κ : Type}

/-- A monitor whose shadow is its last call and whose parity is that of its count. Each of its calls
reported what was due, and nothing else was reported. -/
structure Attends (first : Bench κ Ledger) (s : Session κ ParityMonitor) : Prop where
  consistent : s.hook.Consistent
  shadow : s.hook.last = s.calls.getLast?.map fun c => (c.iteration, c.left)
  diagnostics : s.bench.diagnostics = first.diagnostics ++ s.calls.flatMap (·.reported)
  reported : ∀ k (bound : k < s.calls.length),
    s.calls[k].reported = Diagnostic.failures ⟨"simple-state", s.calls[k].iteration⟩
      (HandCall.due (s.calls.take k).getLast? s.calls[k].iteration s.calls[k].found)

theorem Attends.objections {first : Bench κ Ledger} {s : Session κ ParityMonitor}
    (h : s.Attends first) (i : Iteration) (found : Int64) :
    s.hook.objections i found = HandCall.due s.calls.getLast? i found := by
  unfold ParityMonitor.objections HandCall.due
  rw [h.shadow]
  by_cases zero : i = .zero
  · rw [if_pos zero, if_pos zero]
  · rw [if_neg zero, if_neg zero]
    cases s.calls.getLast? with
    | none => rfl
    | some p =>
        simp only [Option.map_some, Iteration.eq_next_iff zero, Iteration.eq_add_addend_iff_min]

variable [CoinSource κ]

theorem Attends.called {first : Bench κ Ledger} {s : Session κ ParityMonitor} (h : s.Attends first)
    (i : Iteration) :
    ∃ m c, s.bench.call s.hook i = (.returned m, c) ∧
      ∀ bench : Bench κ Ledger, bench.diagnostics = c.diagnostics →
        Attends first { hook := m, bench, calls := s.calls ++ [s.handCall i] } := by
  have resumed : (s.hook.resumed i).Consistent := by
    unfold ParityMonitor.resumed
    split
    · rfl
    · exact h.consistent
  rcases s.hook.turn_of_consistent ⟨"simple-state", i⟩ s.bench resumed with
    ⟨m, c, called, turn, last⟩
  have result : s.bench.call s.hook i = (.returned m, c) := called
  have added : (s.handCall i).reported = Diagnostic.failures ⟨"simple-state", i⟩
      (s.hook.objections i s.bench.sum) := by
    simp [handCall, result, turn.reported.diagnostics]
  refine ⟨m, c, result, ?_⟩
  intro bench same
  constructor
  · exact turn.consistent
  · simp [last, handCall, result]
  · show bench.diagnostics = _
    rw [same, turn.reported.diagnostics, h.diagnostics]
    simp [added]
  · intro k bound
    by_cases old : k < s.calls.length
    · have earlier := h.reported k old
      simpa [List.getElem_append_left old, List.take_append_of_le_length (Nat.le_of_lt old)] using
        earlier
    · have final : k = s.calls.length := by
        simp at bound
        omega
      subst final
      rw [h.objections] at added
      simpa [handCall] using added

theorem Attends.after {first : Bench κ Ledger} {s : Session κ ParityMonitor} (h : s.Attends first)
    (move : Move) : (s.after move).Attends first := by
  cases move with
  | write sum => exact ⟨h.consistent, h.shadow, h.diagnostics, h.reported⟩
  | call i =>
      rcases h.called i with ⟨m, c, called, attends⟩
      have next := attends c rfl
      simpa [Session.after, called, Outcome.state] using next
  | step i =>
      rcases h.called i with ⟨m, c, called, attends⟩
      have next := attends (c.addIndex i) rfl
      simpa [Session.after, Bench.step, called, Outcome.state] using next

theorem Attends.through {first : Bench κ Ledger} {s : Session κ ParityMonitor} (h : s.Attends first)
    (moves : List Move) : (s.through moves).Attends first := by
  induction moves generalizing s with
  | nil => exact h
  | cons move rest ih => exact ih (h.after move)

/-- However a monitor is driven by hand, each call reports exactly what is due after the call before
it. The parity is never reported. -/
theorem monitor_by_hand_is_exact (b : Bench κ Ledger) (moves : List Move) :
    let s := Session.through { hook := ({} : ParityMonitor), bench := b } moves
    s.calls.map (·.iteration) = moves.filterMap Move.index? ∧
      s.bench.diagnostics = b.diagnostics ++ s.calls.flatMap (·.reported) ∧
      (∀ k (bound : k < s.calls.length),
        s.calls[k].reported = Diagnostic.failures ⟨"simple-state", s.calls[k].iteration⟩
          (HandCall.due (s.calls.take k).getLast? s.calls[k].iteration s.calls[k].found)) ∧
      (∀ c ∈ s.calls, ∀ i name,
        .assertion i name "state disagrees with negation parity" ∉ c.reported) ∧
      (s.bench.diagnostics = b.diagnostics ↔
        ∀ k (bound : k < s.calls.length), s.calls[k].Legal (s.calls.take k).getLast?) := by
  intro s
  have start : Attends b { hook := {}, bench := b } := by
    constructor <;> simp [ParityMonitor.Consistent, Parity.ofCount]
  have attends : s.Attends b := start.through moves
  have iterations := iterations_through { hook := ({} : ParityMonitor), bench := b } moves
  refine ⟨iterations, attends.diagnostics, attends.reported, ?_, ?_⟩
  · intro c member i name said
    rcases List.getElem_of_mem member with ⟨k, bound, rfl⟩
    rw [attends.reported k bound] at said
    simp only [Diagnostic.failures, List.mem_map] at said
    rcases said with ⟨message, due, same⟩
    cases same
    exact HandCall.parity_notMem_due _ _ _ due
  · rw [attends.diagnostics, List.append_right_eq_self, List.flatMap_eq_nil_iff]
    constructor
    · intro silent k bound
      rw [← HandCall.due_eq_nil_iff]
      have nothing := silent s.calls[k] (List.getElem_mem bound)
      rw [attends.reported k bound] at nothing
      simpa [Diagnostic.failures] using nothing
    · intro legal c member
      rcases List.getElem_of_mem member with ⟨k, bound, rfl⟩
      have nothing := (HandCall.due_eq_nil_iff _ _).mpr (legal k bound)
      simp [attends.reported k bound, nothing, Diagnostic.failures]

/-- Calls at the two last indices, which add the largest sum each, and one out of order after them.
-/
theorem monitor_by_hand_is_exact_at_last_indices :
    let b : Bench Coin Ledger := { coin := .fixed true, sink := {} }
    let last : Iteration := ⟨18446744073709551615⟩
    let moves : List Move :=
      [.step ⟨18446744073709551614⟩, .step last, .write 5, .call ⟨2⟩, .step .zero]
    let s := Session.through { hook := ({} : ParityMonitor), bench := b } moves
    s.calls.map (·.iteration) = [⟨18446744073709551614⟩, last, ⟨2⟩, .zero] ∧
      s.calls[1]?.map (·.reported) = some [] ∧
      s.calls[2]?.map (·.reported) = some
        [.assertion ⟨2⟩ "simple-state" "iteration does not follow the previous call",
          .assertion ⟨2⟩ "simple-state" "accumulator diverged from shadow prediction"] ∧
      s.bench.diagnostics ≠ b.diagnostics := by
  intro b last moves s
  have one : 1 < s.calls.length := by decide
  have two : 2 < s.calls.length := by decide
  have second :
      HandCall.due (s.calls.take 1).getLast? s.calls[1].iteration s.calls[1].found = [] := by
    decide +revert
  have index : s.calls[2].iteration = ⟨2⟩ := by decide +revert
  have third : HandCall.due (s.calls.take 2).getLast? s.calls[2].iteration s.calls[2].found =
      ["iteration does not follow the previous call",
        "accumulator diverged from shadow prediction"] := by
    decide +revert
  have session : Session.through { hook := ({} : ParityMonitor), bench := b } moves = s := rfl
  rcases monitor_by_hand_is_exact b moves with ⟨iterations, -, reported, -, silent⟩
  -- From here on the session is known by what is proved of it only.
  simp only [session] at iterations reported silent
  clear_value s
  refine ⟨iterations, ?_, ?_, ?_⟩
  · rw [List.getElem?_eq_getElem one, Option.map_some, reported 1 one, second]
    rfl
  · rw [List.getElem?_eq_getElem two, Option.map_some, reported 2 two, third, index]
    rfl
  · intro nothing
    have legal := silent.mp nothing 2 two
    rw [← HandCall.due_eq_nil_iff, third] at legal
    cases legal

end Session

end HookRig
