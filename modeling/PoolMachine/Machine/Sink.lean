/-!
# Sinks

A sink takes the text that a run prints. It may refuse text, after taking some of it, and it may
refuse the flush at the end of a run; it then says why.

* **`Sink`**: what a run asks of a sink.
* A `String` is a sink that takes everything.
* **`Buffer`**: keeps the bytes of the text, up to a capacity.
-/

namespace PoolMachine

/-- A place for printed text. Each operation gives the sink after it, and the reason where the
sink refuses. -/
class Sink (σ : Type) where
  /-- Takes a text, or as much of it as there is room for. -/
  write : σ → String → σ × Option String
  /-- Settles what has been written. -/
  flush : σ → σ × Option String

/-- Prints a text to a sink. An empty text never reaches it. -/
def Sink.print {σ : Type} [Sink σ] (sink : σ) (text : String) : σ × Option String :=
  if text.isEmpty then (sink, none) else Sink.write sink text

/-- A text takes all that is printed, and never refuses. -/
instance : Sink String where
  write sink text := (sink ++ text, none)
  flush sink := (sink, none)

/-- Bytes of printed text, up to a capacity. -/
structure Buffer where
  /-- The bytes taken so far. -/
  bytes : ByteArray := .empty
  /-- The greatest number of bytes, if it is bounded. -/
  capacity : Option Nat := none
  /-- The reason for refusing a byte beyond the capacity. -/
  whenFull : String := ""
  /-- The reason for refusing the flush, if it is refused. -/
  flushRefusal : Option String := none

namespace Buffer

/-- The bytes of a text for which a buffer has room. -/
def fitting (b : Buffer) (text : String) : ByteArray :=
  match b.capacity with
  | none => text.toUTF8
  | some n => text.toUTF8.extract 0 (n - b.bytes.size)

/-- Takes the bytes that fit, and refuses if that is not all of them. -/
def write (b : Buffer) (text : String) : Buffer × Option String :=
  let part := b.fitting text
  let refusal := if part.size < text.utf8ByteSize then some b.whenFull else none
  ({ b with bytes := b.bytes ++ part }, refusal)

instance : Sink Buffer where
  write := write
  flush b := (b, b.flushRefusal)

end Buffer

end PoolMachine
