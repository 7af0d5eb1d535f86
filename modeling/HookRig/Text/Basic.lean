/-! # Text of numbers, strings and values

Whole numbers are written in base ten without leading zeros, and a negative one
with a minus sign in front. A quoted string stands between double quotes, with
escapes. An outline is the shape of a value's description, with one rendering on
one line and one with a line for each part.
-/

namespace HookRig.Text

def natural (n : Nat) : String := n.repr

def integer : Int → String
  | .ofNat n => natural n
  | .negSucc n => "-" ++ natural (n + 1)

def flag (b : Bool) : String := if b then "true" else "false"

/-! ## Quoted strings

The quote, the backslash and the four common control characters have escapes of
two characters; every other control character is written by its code in
hexadecimal. All other characters are taken to be printable.
-/

/-- The controls: the first 32 codes, delete, and the 32 codes after it. -/
def isControl (c : Char) : Bool := c.toNat < 0x20 || (0x7f ≤ c.toNat && c.toNat ≤ 0x9f)

def escape (c : Char) : List Char :=
  if c = '\x00' then ['\\', '0']
  else if c = '\t' then ['\\', 't']
  else if c = '\r' then ['\\', 'r']
  else if c = '\n' then ['\\', 'n']
  else if c = '"' then ['\\', '"']
  else if c = '\\' then ['\\', '\\']
  else if isControl c then
    ['\\', 'u', '\x7b'] ++ Nat.toDigits 16 c.toNat ++ ['\x7d']
  else [c]

def quoted (s : String) : String :=
  String.ofList ('"' :: s.toList.flatMap escape ++ ['"'])

/-! ## Outlines

Records of labelled parts, and lists. Parts on lines of their own are indented by
four spaces per level, and each is followed by a comma.
-/

inductive Outline where
  | text (s : String)
  | labelled (label : String) (value : Outline)
  | record (name : String) (parts : List Outline)
  | list (items : List Outline)

namespace Outline

mutual

def onLine : Outline → String
  | .text s => s
  | .labelled label value => label ++ ": " ++ value.onLine
  | .record name parts => name ++ " \x7b " ++ ", ".intercalate (onLines parts) ++ " \x7d"
  | .list items => "[" ++ ", ".intercalate (onLines items) ++ "]"

def onLines : List Outline → List String
  | [] => []
  | o :: rest => o.onLine :: onLines rest

end

def margin (depth : Nat) : String := String.ofList (List.replicate (4 * depth) ' ')

mutual

/-- The rendering with one part per line, for a value that stands `depth` levels deep. -/
def indented (depth : Nat) : Outline → String
  | .text s => s
  | .labelled label value => label ++ ": " ++ value.indented depth
  | .record name parts =>
      name ++ " \x7b\n" ++ indentedParts (depth + 1) parts ++ margin depth ++ "\x7d"
  | .list [] => "[]"
  | .list items => "[\n" ++ indentedParts (depth + 1) items ++ margin depth ++ "]"

def indentedParts (depth : Nat) : List Outline → String
  | [] => ""
  | o :: rest => margin depth ++ o.indented depth ++ ",\n" ++ indentedParts depth rest

end

end Outline

end HookRig.Text
