/-! # Text for a terminal

Text for a terminal may hold control sequences, which the terminal obeys and does
not show. What is shown of a text is found by following the terminal from state
to state, one character at a time. Of the single controls only the blank ones are
shown; one that breaks into a sequence either ends or suspends it. Main
statements: plain text is shown as it is, and the end of a style leaves no
sequence open.
-/

namespace HookRig.Text

/-- What a terminal is in the middle of. -/
inductive Terminal where
  | ground
  /-- After the escape character. -/
  | escape
  /-- In an escape sequence that goes on. -/
  | escapeTail
  /-- In a control sequence, up to its final letter. -/
  | control
  /-- In an operating system command, up to a bell. -/
  | command
  /-- At the start of a device string's header. -/
  | device
  /-- In the numbers of a device string's header. -/
  | deviceNumbers
  /-- In the rest of a device string's header. -/
  | deviceTail
  /-- In a string, up to its terminator. -/
  | string
deriving DecidableEq

namespace Terminal

def escapeChar : Char := '\x1b'

/-- The characters that end any sequence, unseen. -/
def cancels (c : Char) : Bool := c = '\x18' || c = '\x1a'

/-- The controls that are shown: tab, new line, form feed and carriage return. -/
def isBlank (c : Char) : Bool := c = '\t' || c = '\n' || c = '\x0c' || c = '\r'

def isShown (c : Char) : Bool := isBlank c || (' ' ≤ c && c ≠ '\x7f')

/-- The characters that a sequence goes on with. -/
def isIntermediate (c : Char) : Bool := ' ' ≤ c && c ≤ '/'

/-- The characters of a sequence's numbers and of what divides them. -/
def isParameter (c : Char) : Bool := '0' ≤ c && c ≤ '?'

/-- The characters that end a sequence. -/
def isFinal (c : Char) : Bool := '@' ≤ c && c ≤ '~'

/-- A string is ended by one byte, wherever it stands in a character's encoding. -/
def endsString (c : Char) : Bool := (String.utf8EncodeChar c).contains 0x9c

/-- The state after the second character of an escape sequence. -/
def afterEscape (c : Char) : Terminal :=
  if c = '[' then .control
  else if c = ']' then .command
  else if c = 'P' then .device
  else if c = 'X' || c = '^' || c = '_' then .string
  else if isIntermediate c then .escapeTail
  else if isParameter c || isFinal c then .ground
  else .escape

/-- The next state inside a sequence, for a character that neither starts a new
one nor cancels it. -/
def inside (t : Terminal) (c : Char) : Terminal :=
  match t with
  | .ground => .ground
  | .escape => afterEscape c
  | .escapeTail => if isParameter c || isFinal c then .ground else .escapeTail
  | .control => if isFinal c then .ground else .control
  | .command => if c = '\x07' then .ground else .command
  | .device =>
      if isIntermediate c then .deviceTail
      else if isParameter c then .deviceNumbers
      else if isFinal c then .string else .device
  | .deviceNumbers =>
      if isIntermediate c then .deviceTail
      else if ('<' ≤ c && c ≤ '?') || isFinal c then .string else .deviceNumbers
  | .deviceTail => if isParameter c || isFinal c then .string else .deviceTail
  | .string => if endsString c then .ground else .string

/-- A blank control breaks into an escape or control sequence; the other sequences
swallow it. -/
def breaksInto (t : Terminal) (c : Char) : Bool :=
  isBlank c && (t = .escape || t = .escapeTail || t = .control)

end Terminal

/-- What becomes of a sequence that a blank control breaks into. -/
inductive Interruption where
  | ends
  /-- Text is shown up to the next hidden control, where the sequence goes on; a
  character beyond ASCII ends it. -/
  | suspends
deriving DecidableEq

/-- A terminal's state, and whether the sequence it is in is suspended. -/
structure Screen where
  state : Terminal := .ground
  suspended : Bool := false
deriving DecidableEq

namespace Screen

open Terminal

def ground : Screen := {}

def interrupted (s : Screen) : Interruption → Screen
  | .ends => ground
  | .suspends => { s with suspended := true }

def afterText (s : Screen) (c : Char) : Screen := if c ≤ '\x7f' then s else ground

def next (how : Interruption) (s : Screen) (c : Char) : Screen × Bool :=
  if c = escapeChar then (⟨.escape, false⟩, false)
  else if cancels c then (ground, false)
  else if s.suspended || s.state = .ground then
    if isShown c then (s.afterText c, true) else (⟨s.state, false⟩, false)
  else if s.state.breaksInto c then (s.interrupted how, true)
  else (⟨s.state.inside c, false⟩, false)

def shown (how : Interruption) (s : Screen) : List Char → List Char
  | [] => []
  | c :: rest =>
      if (s.next how c).2 then c :: (s.next how c).1.shown how rest
      else (s.next how c).1.shown how rest

end Screen

def visible (how : Interruption) (s : String) : String :=
  String.ofList (Screen.ground.shown how s.toList)

/-- A manner of writing that a terminal shows by its colour or weight. -/
inductive Style where
  | alarm
  | wrong
  | literal

namespace Style

def start : Style → String
  | .alarm => "\x1b[1m\x1b[31m"
  | .wrong => "\x1b[33m"
  | .literal => "\x1b[1m"

def apply (style : Style) (s : String) : String := style.start ++ s ++ "\x1b[0m"

end Style

/-- The first line of a text, without the carriage return that may end it. -/
def firstLine (s : String) : String :=
  let line := s.toList.takeWhile (· != '\n')
  let ended := line.length < s.toList.length
  String.ofList (if ended && line.getLast? = some '\r' then line.dropLast else line)

end HookRig.Text
