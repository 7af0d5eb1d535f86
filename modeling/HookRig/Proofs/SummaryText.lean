import HookRig.Proofs.DecimalText
import HookRig.Run.Summary

/-! # What the line of a summary tells

The line of a summary holds three numbers: the iterations, the whole seconds and the sum. They can
be read back from it, whatever they are, and it tells nothing else. The sum can also be found
without reading the rest of the line, between the last `sum=` and the bracket at the end.
-/

namespace HookRig

namespace Text

/-- A text cut in two at the last occurrence of a mark, which is left out. -/
def cutLast (mark : List Char) : List Char → Option (List Char × List Char)
  | [] => none
  | c :: rest =>
      match cutLast mark rest with
      | some (before, after) => some (c :: before, after)
      | none => if mark <+: c :: rest then some ([], (c :: rest).drop mark.length) else none

variable {m : Char} {mark : List Char}

theorem cutLast_of_notMem {text : List Char} (absent : m ∉ text) :
    cutLast (m :: mark) text = none := by
  induction text with
  | nil => rfl
  | cons c rest ih =>
      rw [List.mem_cons, not_or] at absent
      have other : ¬ m :: mark <+: c :: rest := by
        rw [List.cons_prefix_cons]
        exact fun here => absent.1 here.1
      rw [cutLast, ih absent.2]
      exact if_neg other

/-- A mark is the last one if its first character does not come again. -/
theorem cutLast_append (before : List Char) {after : List Char} (last : m ∉ mark ++ after) :
    cutLast (m :: mark) (before ++ (m :: mark ++ after)) = some (before, after) := by
  induction before with
  | nil =>
      have here : m :: mark <+: m :: (mark ++ after) := List.prefix_append (m :: mark) after
      rw [List.nil_append, List.cons_append, cutLast, cutLast_of_notMem last]
      simp only [if_pos here]
      rw [← List.cons_append, List.drop_left]
  | cons c before ih => rw [List.cons_append, cutLast, ih]

end Text

namespace Elapsed

def nanoseconds (e : Elapsed) : Nat := e.seconds.toNat * 1000000000 + e.nanos

theorem toNat_seconds (e : Elapsed) : e.seconds.toNat = e.nanoseconds / 1000000000 := by
  unfold nanoseconds
  omega

end Elapsed

namespace Summary

structure Line where
  iterations : UInt64
  seconds : UInt64
  sum : Int64
deriving DecidableEq

def line (s : Summary) : Line := ⟨s.iterations, s.elapsed.seconds, s.sum⟩

namespace Line

def text (l : Line) : String :=
  Text.natural l.iterations.toNat ++ " took " ++ Text.natural l.seconds.toNat ++ "s (sum=" ++
    Text.integer l.sum.toInt ++ ")"

/-- Three numbers are read from a text, which is accepted if that is how they are written. -/
def ofText? (text : String) : Option Line :=
  let (iterations, rest) := Text.readNatural text.toList
  let (seconds, rest) := Text.readNatural (rest.drop " took ".length)
  let (sum, _) := Text.readInteger (rest.drop "s (sum=".length)
  let line : Line := ⟨.ofNat iterations, .ofNat seconds, .ofInt sum⟩
  if line.text = text then some line else none

def sumText? (text : String) : Option String := do
  let (_, after) ← Text.cutLast "sum=".toList text.toList
  let (sum, _) ← Text.cutLast ")".toList after
  return String.ofList sum

theorem toList_text (l : Line) :
    l.text.toList = (Text.natural l.iterations.toNat).toList ++ (" took ".toList ++
      ((Text.natural l.seconds.toNat).toList ++ ("s (sum=".toList ++
        ((Text.integer l.sum.toInt).toList ++ ")".toList)))) := by
  simp only [text, String.toList_append, List.append_assoc]

theorem ofText?_text (l : Line) : ofText? l.text = some l := by
  let last := (Text.integer l.sum.toInt).toList ++ ")".toList
  let middle := (Text.natural l.seconds.toNat).toList ++ ("s (sum=".toList ++ last)
  have iterations : Text.readNatural l.text.toList =
      (l.iterations.toNat, " took ".toList ++ middle) := by
    rw [toList_text]
    exact Text.readNatural_append (by rintro c ⟨⟩; rfl) _
  have seconds : Text.readNatural middle = (l.seconds.toNat, "s (sum=".toList ++ last) :=
    Text.readNatural_append (by rintro c ⟨⟩; rfl) _
  have sum : Text.readInteger last = (l.sum.toInt, ")".toList) :=
    Text.readInteger_append (by rintro c ⟨⟩; rfl) _
  simp only [ofText?, iterations, seconds, sum, Text.drop_words, UInt64.ofNat_toNat,
    Int64.ofInt_toInt, if_true]

theorem text_of_ofText? {t : String} {l : Line} (h : ofText? t = some l) : l.text = t := by
  unfold ofText? at h
  simp only [Option.ite_none_right_eq_some, Option.some.injEq] at h
  obtain ⟨written, rfl⟩ := h
  exact written

/-- Neither the digits of the sum nor its sign can be taken for a mark. -/
theorem sumText?_text (l : Line) : sumText? l.text = some (Text.integer l.sum.toInt) := by
  let before := (Text.natural l.iterations.toNat).toList ++ (" took ".toList ++
    ((Text.natural l.seconds.toNat).toList ++ "s (".toList))
  let sum := (Text.integer l.sum.toInt).toList
  have parts : l.text.toList = before ++ ("sum=".toList ++ (sum ++ ")".toList)) := by
    rw [toList_text]
    simp only [before, sum, List.append_assoc]
    rfl
  have last : 's' ∉ "um=".toList ++ (sum ++ ")".toList) := by
    rw [List.mem_append, List.mem_append]
    rintro (mark | number | bracket)
    · revert mark
      decide
    · rcases Text.mem_integer number with sign | digit
      · exact absurd sign (by decide)
      · exact absurd digit (by decide)
    · revert bracket
      decide
  have first : Text.cutLast "sum=".toList l.text.toList = some (before, sum ++ ")".toList) := by
    rw [parts]
    exact Text.cutLast_append before last
  have second : Text.cutLast ")".toList (sum ++ ")".toList) = some (sum, []) :=
    Text.cutLast_append sum List.not_mem_nil
  simp only [sumText?, first, second, Option.bind_eq_bind, Option.bind_some, Option.pure_def, sum,
    String.ofList_toList]

end Line

theorem text_line (s : Summary) : s.line.text = s.text := rfl

/-- The line of a summary can be read back: it tells the iterations, the whole seconds and the sum,
and nothing else. -/
theorem text_reads_back :
    (∀ s : Summary,
      Line.ofText? s.text = some ⟨s.iterations, s.elapsed.seconds, s.sum⟩ ∧
        s.elapsed.seconds.toNat = s.elapsed.nanoseconds / 1000000000) ∧
      (∀ text line, Line.ofText? text = some line ↔ ∃ s : Summary, s.text = text ∧ s.line = line) ∧
      (∀ s t : Summary, s.text = t.text ↔
        s.iterations = t.iterations ∧ s.elapsed.seconds = t.elapsed.seconds ∧ s.sum = t.sum) ∧
      ∀ s : Summary, Line.sumText? s.text = some (Text.integer s.sum.toInt) := by
  have read (s : Summary) : Line.ofText? s.text = some s.line := by
    rw [← text_line, Line.ofText?_text]
  refine ⟨fun s => ⟨read s, s.elapsed.toNat_seconds⟩, ?_, ?_, ?_⟩
  · intro text line
    constructor
    · intro accepted
      have written := Line.text_of_ofText? accepted
      exact ⟨⟨line.iterations, ⟨line.seconds, 0⟩, line.sum, {}, none⟩, written, rfl⟩
    · rintro ⟨s, rfl, rfl⟩
      exact read s
  · intro s t
    constructor
    · intro same
      have lines : s.line = t.line := by
        rw [← Option.some.injEq, ← read s, ← read t, same]
      exact ⟨congrArg Line.iterations lines, congrArg Line.seconds lines, congrArg Line.sum lines⟩
    · rintro ⟨iterations, seconds, sum⟩
      rw [text, text, iterations, seconds, sum]
  · intro s
    rw [← text_line, Line.sumText?_text]
    rfl

example : Line.ofText? "12 took 3s (sum=-66)" = some ⟨12, 3, -66⟩ ∧
    Line.ofText? "012 took 3s (sum=-66)" = none := by decide +kernel

end Summary

end HookRig
