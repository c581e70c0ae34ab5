/-!
# Log records

A log record has a level, the part of the system that it comes from, and a message. A threshold
lets the records up to a level through. Where no threshold is set, none is recorded.

* **`Level`**: from `error`, the most urgent, to `trace`, the most detailed.
* **`Threshold`**: the most detailed level that is let through, or nothing at all.
-/

namespace PoolMachine.Log

/-- How detailed a record is. -/
inductive Level
  | error
  | warn
  | info
  | debug
  | trace
deriving DecidableEq, Repr, Inhabited

namespace Level

/-- The place of a level, from the most urgent to the most detailed. -/
def rank : Level → Nat
  | error => 1
  | warn => 2
  | info => 3
  | debug => 4
  | trace => 5

/-- The label of a level in a log line. -/
def label : Level → String
  | error => "ERROR"
  | warn => "WARN"
  | info => "INFO"
  | debug => "DEBUG"
  | trace => "TRACE"

end Level

/-- The most detailed level that is let through; `none` lets nothing through. -/
abbrev Threshold := Option Level

/-- Whether a threshold lets a level through. -/
def Threshold.admits (t : Threshold) (l : Level) : Bool :=
  match t with
  | none => false
  | some m => l.rank ≤ m.rank

/-- Reads the name of a threshold, in any letter case. -/
def Threshold.ofName? (name : String) : Option Threshold :=
  match name.toLower with
  | "off" => some none
  | "error" => some (some .error)
  | "warn" => some (some .warn)
  | "info" => some (some .info)
  | "debug" => some (some .debug)
  | "trace" => some (some .trace)
  | _ => none

/-- One message of a part of the system. -/
structure Record where
  /-- How detailed it is. -/
  level : Level
  /-- The part of the system that it comes from. -/
  target : String
  /-- The message. -/
  message : String
deriving DecidableEq, Repr, Inhabited

/-- Text on the left of a field of at least the given width. -/
def alignLeft (width : Nat) (s : String) : String :=
  s ++ String.ofList (List.replicate (width - s.length) ' ')

/-- Text on the right of a field of at least the given width. -/
def alignRight (width : Nat) (s : String) : String :=
  String.ofList (List.replicate (width - s.length) ' ') ++ s

/-- The log line of a record, with its line feed. -/
def Record.line (r : Record) : String :=
  alignLeft 5 r.level.label ++ " [" ++ r.target ++ "] " ++ r.message ++ "\n"

/-- The log lines of the records that a threshold lets through. -/
def lines (t : Threshold) (records : List Record) : String :=
  String.join ((records.filter fun r => t.admits r.level).map Record.line)

end PoolMachine.Log
