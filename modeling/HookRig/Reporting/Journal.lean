/-! # The journal

A journal keeps the records made at or above a level of severity, under the
name of the part that made them.
-/

namespace HookRig

inductive Level where
  | error
  | warn
  | info
  | debug
  | trace
deriving DecidableEq

namespace Level

/-- From the most to the least severe. -/
def rank : Level → Nat
  | .error => 1
  | .warn => 2
  | .info => 3
  | .debug => 4
  | .trace => 5

def name : Level → String
  | .error => "ERROR"
  | .warn => "WARN"
  | .info => "INFO"
  | .debug => "DEBUG"
  | .trace => "TRACE"

end Level

/-- The least severe level that is kept; `none` keeps nothing. -/
abbrev Threshold := Option Level

namespace Threshold

def admits (t : Threshold) (level : Level) : Bool :=
  match t with
  | none => false
  | some least => level.rank ≤ least.rank

/-- Thresholds are named in any case. -/
def ofName? (s : String) : Option Threshold :=
  match String.ofList (s.toList.map Char.toLower) with
  | "off" => some none
  | "error" => some (some .error)
  | "warn" => some (some .warn)
  | "info" => some (some .info)
  | "debug" => some (some .debug)
  | "trace" => some (some .trace)
  | _ => none

end Threshold

structure Record where
  level : Level
  target : String
  text : String
deriving DecidableEq

/-- A record as a line, the level padded to five characters. -/
def Record.line (r : Record) : String :=
  let padding := String.ofList (List.replicate (5 - r.level.name.length) ' ')
  "[" ++ r.level.name ++ padding ++ " " ++ r.target ++ "] " ++ r.text

structure Journal where
  threshold : Threshold := some .trace
  /-- Records, newest first. -/
  entries : List Record := []

namespace Journal

def records (j : Journal) : List Record := j.entries.reverse

def log (j : Journal) (r : Record) : Journal :=
  if j.threshold.admits r.level then { j with entries := r :: j.entries } else j

theorem records_log (j : Journal) (r : Record) :
    (j.log r).records = j.records ++ if j.threshold.admits r.level then [r] else [] := by
  unfold log records
  split <;> simp

end Journal

end HookRig
