import HookRig.Hook.Stock
import HookRig.Proofs.DecimalText
import HookRig.Proofs.JournalAndBuffer

/-! # What the text of a diagnostic tells

The message at the end of a text may hold anything, also what looks like the end of a name or like
another index. The text is read from the front: its first words tell the two kinds apart, a name
that has no quote of its own ends at the first one, the index ends with its digits, and all
that follows is the message. So a text tells its diagnostic, and the warnings of a run tell all
of its diagnostics.
-/

namespace HookRig

namespace Text

def Quotable (text : String) : Prop := '\'' ∉ text.toList

instance (text : String) : Decidable (Quotable text) :=
  inferInstanceAs (Decidable ('\'' ∉ text.toList))

/-- What stands before the first single quote, and the rest from there on. -/
def readQuotable (text : List Char) : List Char × List Char :=
  (text.takeWhile (· != '\''), text.dropWhile (· != '\''))

private theorem readQuotable_append {name : String} (quotable : Quotable name) (rest : List Char) :
    readQuotable (name.toList ++ '\'' :: rest) = (name.toList, '\'' :: rest) := by
  have inside : ∀ c ∈ name.toList, (c != '\'') = true := by
    intro c member
    rw [bne_iff_ne]
    rintro rfl
    exact quotable member
  have stop : ∀ c ∈ ('\'' :: rest).head?, (c != '\'') = false := by
    rintro c ⟨⟩
    rfl
  obtain ⟨first, after⟩ := split_append inside stop
  rw [readQuotable, first, after]

private theorem quotable_readQuotable (text : List Char) :
    Quotable (String.ofList (readQuotable text).1) := by
  intro member
  have inside := List.all_takeWhile (p := (· != '\'')) (l := text)
  rw [String.toList_ofList] at member
  exact absurd (List.all_eq_true.mp inside _ member) (by decide)

end Text

namespace Diagnostic

def Readable : Diagnostic → Prop
  | .assertion _ hook _ => Text.Quotable hook
  | .internal _ => True

instance : (d : Diagnostic) → Decidable d.Readable
  | .assertion _ hook _ => inferInstanceAs (Decidable (Text.Quotable hook))
  | .internal _ => .isTrue trivial

theorem readable_of_not_isAssertion {d : Diagnostic} (h : d.isAssertion = false) : d.Readable := by
  cases d with
  | assertion => cases h
  | internal message => trivial

private theorem toList_text_assertion (iteration : Iteration) (hook message : String) :
    (assertion iteration hook message).text.toList =
      "assertion failed in hook '".toList ++ (hook.toList ++ ("' at iteration ".toList ++
        ((Text.natural iteration.index.toNat).toList ++ (": ".toList ++ message.toList)))) := by
  unfold text
  simp only [String.toList_append, List.append_assoc]

private theorem toList_text_internal (message : String) :
    (internal message).text.toList = "internal check failed: ".toList ++ message.toList := by
  unfold text
  exact String.toList_append

/-- The first letter is enough to tell the kinds apart. -/
theorem internal_prefix_text_iff (d : Diagnostic) :
    "internal check failed: ".toList <+: d.text.toList ↔ d.isAssertion = false := by
  cases d with
  | assertion iteration hook message =>
      rw [toList_text_assertion]
      constructor
      · intro start
        have letter : 'i' = 'a' := (List.cons_prefix_cons.mp start).1
        exact absurd letter (by decide)
      · nofun
  | internal message =>
      rw [toList_text_internal]
      exact ⟨fun _ => rfl, fun _ => List.prefix_append _ _⟩

/-- The parts of a text that has the words of a failed check of a hook. -/
def ofAssertionText (text : List Char) : Diagnostic :=
  let (hook, rest) := Text.readQuotable (text.drop "assertion failed in hook '".length)
  let (index, rest) := Text.readNatural (rest.drop "' at iteration ".length)
  .assertion (.ofNat index) (.ofList hook) (.ofList (rest.drop ": ".length))

def ofInternalText (text : List Char) : Diagnostic :=
  .internal (.ofList (text.drop "internal check failed: ".length))

/-- A diagnostic is read from a text, which is accepted if that is how it is written. -/
def ofText? (text : String) : Option Diagnostic :=
  let read :=
    if "internal check failed: ".toList <+: text.toList then ofInternalText text.toList
    else ofAssertionText text.toList
  if read.text = text then some read else none

theorem ofAssertionText_text (iteration : Iteration) {hook : String} (quotable : Text.Quotable hook)
    (message : String) :
    ofAssertionText (assertion iteration hook message).text.toList =
      assertion iteration hook message := by
  -- The message comes last and is never looked into, so it may hold quotes, digits and colons.
  let last := ": ".toList ++ message.toList
  let middle := (Text.natural iteration.index.toNat).toList ++ last
  have name : Text.readQuotable (hook.toList ++ ("' at iteration ".toList ++ middle)) =
      (hook.toList, "' at iteration ".toList ++ middle) :=
    Text.readQuotable_append quotable _
  have index : Text.readNatural middle = (iteration.index.toNat, last) :=
    Text.readNatural_append (by rintro c ⟨⟩; rfl) _
  have parts : (assertion iteration hook message).text.toList =
      "assertion failed in hook '".toList ++
        (hook.toList ++ ("' at iteration ".toList ++ middle)) :=
    toList_text_assertion iteration hook message
  simp only [ofAssertionText, parts, name, index, last, Text.drop_words, String.ofList_toList,
    Iteration.ofNat, UInt64.ofNat_toNat]

theorem ofInternalText_text (message : String) :
    ofInternalText (internal message).text.toList = internal message := by
  rw [toList_text_internal, ofInternalText, Text.drop_words, String.ofList_toList]

theorem ofText?_text {d : Diagnostic} (readable : d.Readable) : ofText? d.text = some d := by
  have kind := internal_prefix_text_iff d
  unfold ofText?
  cases d with
  | assertion iteration hook message =>
      rw [if_neg (mt kind.mp nofun), ofAssertionText_text iteration readable]
      exact if_pos rfl
  | internal message =>
      rw [if_pos (kind.mpr rfl), ofInternalText_text]
      exact if_pos rfl

/-- Whatever is read, its name has no quote. -/
theorem readable_of_ofText? {text : String} {d : Diagnostic} (h : ofText? text = some d) :
    d.Readable := by
  simp only [ofText?, Option.ite_none_right_eq_some, Option.some.injEq] at h
  obtain ⟨-, rfl⟩ := h
  split
  · trivial
  · exact Text.quotable_readQuotable _

theorem text_of_ofText? {text : String} {d : Diagnostic} (h : ofText? text = some d) :
    d.text = text := by
  simp only [ofText?, Option.ite_none_right_eq_some, Option.some.injEq] at h
  obtain ⟨written, rfl⟩ := h
  exact written

theorem ofText?_eq_some_iff {text : String} {d : Diagnostic} :
    ofText? text = some d ↔ d.Readable ∧ d.text = text := by
  constructor
  · intro h
    exact ⟨readable_of_ofText? h, text_of_ofText? h⟩
  · rintro ⟨readable, rfl⟩
    exact ofText?_text readable

/-- The warnings of diagnostics are read one by one. -/
theorem mapM_ofText?_warning {ds : List Diagnostic} (readable : ∀ d ∈ ds, d.Readable) :
    (ds.map warning).mapM (fun e => ofText? e.text) = some ds := by
  induction ds with
  | nil => rfl
  | cons d ds ih =>
      have first : ofText? d.warning.text = some d :=
        ofText?_text (readable d List.mem_cons_self)
      have rest := ih fun e member => readable e (List.mem_cons_of_mem d member)
      rw [List.map_cons, List.mapM_cons, first, rest]
      rfl

end Diagnostic

theorem Threshold.filter_keeps {t : Threshold} {level : Level} (admits : t.admits level = true)
    (made : List Record) :
    (t.keeps made).filter (·.level = level) = made.filter (·.level = level) := by
  rw [keeps, List.filter_filter]
  apply List.filter_congr
  intro e _
  by_cases same : e.level = level
  · simp [same, admits]
  · simp [same]

theorem Stock.quotable_name (s : Stock) : Text.Quotable s.name := by
  cases s <;> decide

namespace Rig

variable {κ η : Type} [CoinSource κ] [Routine η]

/-- All failed checks are reported under the one name, which is that of the hook. -/
theorem readable_reported (r : Rig κ) {hook : η} (quotable : Text.Quotable (Routine.name hook)) :
    ∀ d ∈ r.reported hook, d.Readable := by
  have calls : ∀ d ∈ (r.onLedger hook).state.bench.diagnostics, d.Readable := by
    intro d member
    rw [r.diagnostics_onLedger hook {}] at member
    obtain ⟨check, -, rfl⟩ := List.mem_map.mp member
    exact quotable
  intro d member
  cases ended : r.onLedger hook with
  | returned p =>
      rw [ended] at calls
      rw [reported_of_returned ended, List.mem_append] at member
      rcases member with call | own
      · exact calls d call
      · exact Diagnostic.readable_of_not_isAssertion (p.internal_of_internalCheck d own)
  | panicked p message =>
      rw [ended] at calls
      rw [reported, ended] at member
      exact calls d member

omit [CoinSource κ] in
/-- Only the sink of a run makes warnings. -/
theorem warnings_made (r : Rig κ) (name : String) (sink : Sink) (ds : List Diagnostic)
    (ending : Ending) :
    (r.startRecord name :: sink.records ds ++ endRecords name ending).filter (·.level = .warn) =
      sink.records ds := by
  have own : (sink.records ds).filter (·.level = .warn) = sink.records ds := by
    rw [List.filter_eq_self]
    intro e member
    simp [sink.level_records ds e member]
  cases ending with
  | completed s => simp [startRecord, endRecords, endRecord, own]
  | panicked message => simp [startRecord, endRecords, own]

end Rig

namespace Diagnostic

/-- The texts of diagnostics can be read back if the names in them have no single quote, so the
warnings of a run tell what it would have added to a buffer. -/
theorem texts_are_unambiguous :
    (∀ d e : Diagnostic, d.Readable → e.Readable → (d.text = e.text ↔ d = e)) ∧
      (∀ (iteration : Iteration) (hook message own : String),
        (assertion iteration hook message).text ≠ (internal own).text) ∧
      (∀ text d, ofText? text = some d ↔ d.Readable ∧ d.text = text) ∧
      (∀ (stock : Stock) (ε : Type) [Routine ε], Text.Quotable stock.name ∧
        Routine.name (stock.build : Hook ε) = stock.name) ∧
      ∀ (κ η : Type) [CoinSource κ] [Routine η] (r : Rig κ) (hook : η) (elapsed elapsed' : Elapsed)
        (out out' : Outlets) (handle : Nat),
        Text.Quotable (Routine.name hook) → out.journal.threshold.admits .warn = true →
        out'.buffers.Live handle →
        let logged := (r.withSink .journal).run hook elapsed out
        let kept := (r.withSink (.buffer handle)).run hook elapsed' out'
        ∃ (made : List Record) (ds : List Diagnostic),
          logged.outlets.journal.records = out.journal.records ++ made ∧
          kept.outlets.buffers.diagnostics handle = out'.buffers.diagnostics handle ++ ds ∧
          (made.filter (·.level = .warn)).mapM (fun e => ofText? e.text) = some ds := by
  refine ⟨?_, ?_, fun _ _ => ofText?_eq_some_iff, ?_, ?_⟩
  · intro d e readable readable'
    constructor
    · intro same
      rw [← Option.some.injEq, ← ofText?_text readable, ← ofText?_text readable', same]
    · rintro rfl
      rfl
  · intro iteration hook message own same
    have start := (internal_prefix_text_iff (internal own)).mpr rfl
    rw [← same, internal_prefix_text_iff] at start
    cases start
  · intro stock ε _
    exact ⟨stock.quotable_name, stock.name_build⟩
  · intro κ η _ _ r hook elapsed elapsed' out out' handle quotable admits live logged kept
    -- Both runs report the same, as no hook can see the sink.
    have told := (r.withSink .journal).records_run hook elapsed out
    have gained : out'.Gained kept.outlets (r.reported hook) (.buffer handle) :=
      Rig.gained_run (r := r.withSink (.buffer handle)) live hook elapsed'
    refine ⟨_, r.reported hook, told, gained, ?_⟩
    rw [Threshold.filter_keeps admits, Rig.warnings_made]
    exact mapM_ofText?_warning (r.readable_reported quotable)

/-- Messages that run on from their indices, and a chain whose message is the text of another
diagnostic. -/
theorem texts_are_unambiguous_misleading :
    let d : Diagnostic := .assertion (.ofNat 1) "a" "2: b' at iteration 12: c"
    let e : Diagnostic := .assertion (.ofNat 12) "a" " b' at iteration 12: c"
    let r : Rig Coin := { settings := .withIterations 2, coin := .fixed true, phase := .running }
    let misleading : Script := ⟨"misleading", [⟨.among [1],
      [.check false "' at iteration 0: internal check failed: ", .store Int64.maxValue]⟩]⟩
    let hook : Hook Script := .chain "outer" [.failing 2, .custom misleading]
    let out : Outlets :=
      { journal := ({ threshold := some .warn } : Journal).log ⟨.warn, "before", "a warning"⟩ }
    let out' : Outlets := { buffers := ({} : Buffers).fresh.report 0 (.internal "before") }
    (d.Readable ∧ e.Readable ∧ d.text ≠ e.text) ∧ Text.Quotable (Routine.name hook) ∧
      out.journal.threshold.admits .warn = true ∧ out'.buffers.Live 0 ∧
      ∃ (made : List Record) (ds : List Diagnostic),
        ((r.withSink .journal).run hook {} out).outlets.journal.records =
          out.journal.records ++ made ∧
        ((r.withSink (.buffer 0)).run hook {} out').outlets.buffers.diagnostics 0 =
          out'.buffers.diagnostics 0 ++ ds ∧
        ds.length = 3 ∧
        (made.filter (·.level = .warn)).mapM (fun e => ofText? e.text) = some ds := by
  intro d e r misleading hook out out'
  rcases texts_are_unambiguous with ⟨apart, -, -, -, runs⟩
  have readable : d.Readable := by decide
  have readable' : e.Readable := by decide
  have quotable : Text.Quotable (Routine.name hook) := by decide
  have live : out'.buffers.Live 0 := ⟨0, rfl, by decide⟩
  have four : (((r.withSink (.buffer 0)).run hook {} out').outlets.buffers.diagnostics 0).length =
      4 := by decide +kernel
  rcases runs _ _ r hook {} {} out out' 0 quotable rfl live with ⟨made, ds, told, gained, read⟩
  have three : ds.length = 3 := by
    rw [gained, List.length_append, Nat.add_comm] at four
    exact Nat.succ.inj four
  refine ⟨⟨readable, readable', ?_⟩, quotable, rfl, live, made, ds, told, gained, three, read⟩
  intro same
  exact absurd ((apart d e readable readable').mp same) (by decide)

-- A name with a single quote can be taken for a shorter one with a longer message.
example : (assertion (.ofNat 0) "a' at iteration 1: b" "c").text =
    (assertion (.ofNat 1) "a" "b' at iteration 0: c").text := by decide

end Diagnostic

end HookRig
