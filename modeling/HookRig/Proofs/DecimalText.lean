import HookRig.Text.Basic

/-! # Reading decimal text

The text of a number is made of digits, with a minus sign in front if it is negative. So the
number can be read back from the front of any text in which no further digit follows it.
-/

namespace HookRig.Text

theorem toList_natural (n : Nat) : (natural n).toList = Nat.toDigits 10 n := by
  rw [natural, Nat.repr_eq_ofList_toDigits, String.toList_ofList]

theorem isDigit_of_mem_natural {n : Nat} {c : Char} (member : c ∈ (natural n).toList) :
    c.isDigit = true := by
  rw [toList_natural] at member
  exact Nat.isDigit_of_mem_toDigits (by decide) (by decide) member

theorem natural_eq_cons (n : Nat) :
    ∃ c rest, (natural n).toList = c :: rest ∧ c.isDigit = true := by
  cases digits : (natural n).toList with
  | nil =>
      rw [toList_natural] at digits
      exact absurd digits Nat.toDigits_ne_nil
  | cons c rest =>
      have member : c ∈ (natural n).toList := by simp [digits]
      exact ⟨c, rest, rfl, isDigit_of_mem_natural member⟩

theorem toList_integer_neg (n : Nat) :
    (integer (.negSucc n)).toList = '-' :: (natural (n + 1)).toList := by
  rw [integer, String.toList_append]
  rfl

theorem mem_integer {i : Int} {c : Char} (member : c ∈ (integer i).toList) :
    c = '-' ∨ c.isDigit = true := by
  cases i with
  | ofNat n => exact .inr (isDigit_of_mem_natural member)
  | negSucc n =>
      rw [toList_integer_neg, List.mem_cons] at member
      exact member.imp id isDigit_of_mem_natural

/-- The number that the digits at the front make, and what follows them. -/
def readNatural (text : List Char) : Nat × List Char :=
  (Nat.ofDigitChars 10 (text.takeWhile Char.isDigit) 0, text.dropWhile Char.isDigit)

def readInteger : List Char → Int × List Char
  | '-' :: text => (-((readNatural text).1 : Int), (readNatural text).2)
  | text => ((readNatural text).1, (readNatural text).2)

/-- Words that a text is known to begin with can be skipped. -/
theorem drop_words (words : String) (rest : List Char) :
    (words.toList ++ rest).drop words.length = rest := by
  rw [← String.length_toList, List.drop_left]

/-- A part of a text is read up to the first character that is none of its own. -/
theorem split_append {own : Char → Bool} {part rest : List Char}
    (inside : ∀ c ∈ part, own c = true) (stop : ∀ c ∈ rest.head?, own c = false) :
    (part ++ rest).takeWhile own = part ∧ (part ++ rest).dropWhile own = rest := by
  have none_left : rest.takeWhile own = [] ∧ rest.dropWhile own = rest := by
    cases rest with
    | nil => exact ⟨rfl, rfl⟩
    | cons c rest =>
        have other := stop c rfl
        simp [other]
  rw [List.takeWhile_append_of_pos inside, List.dropWhile_append_of_pos inside, none_left.1,
    none_left.2, List.append_nil]
  exact ⟨rfl, rfl⟩

variable {rest : List Char} (stop : ∀ c ∈ rest.head?, c.isDigit = false)

include stop

theorem readNatural_append (n : Nat) : readNatural ((natural n).toList ++ rest) = (n, rest) := by
  have digits : ∀ c ∈ (natural n).toList, c.isDigit = true := fun c => isDigit_of_mem_natural
  obtain ⟨first, after⟩ := split_append digits stop
  rw [readNatural, first, after, toList_natural, Nat.ofDigitChars_ten_toDigits]

theorem readInteger_append (i : Int) : readInteger ((integer i).toList ++ rest) = (i, rest) := by
  cases i with
  | negSucc n =>
      rw [toList_integer_neg, List.cons_append, readInteger, readNatural_append stop]
      rfl
  | ofNat n =>
      obtain ⟨c, others, text, digit⟩ := natural_eq_cons n
      have read := readNatural_append stop n
      rw [text] at read
      rw [integer, text, readInteger, read]
      · rfl
      · rintro signed ⟨⟩
        cases digit

end HookRig.Text
