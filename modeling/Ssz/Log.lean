-- SUMMARY: Results together with the log events that came with them.

/-!
# Logs

An operation that logs gives its result and the events in the order in which
they happened. Running one operation after another joins their events.
-/

namespace Ssz

inductive LogLevel where
  | trace
  | debug
  | info
  | warn
  deriving DecidableEq, Repr

def LogLevel.name : LogLevel → String
  | .trace => "TRACE"
  | .debug => "DEBUG"
  | .info => "INFO"
  | .warn => "WARN"

structure LogEvent where
  level : LogLevel
  message : String
  /-- Names and texts of the fields, in order. -/
  fields : List (String × String)
  deriving DecidableEq, Repr

/-- A result with the events on the way to it. -/
structure Logged (α : Type) where
  result : α
  events : List LogEvent

namespace Logged

instance : Monad Logged where
  pure a := ⟨a, []⟩
  bind m f := ⟨(f m.result).result, m.events ++ (f m.result).events⟩

/-- Log one event. -/
def log (level : LogLevel) (message : String) (fields : List (String × String)) : Logged Unit :=
  ⟨(), [⟨level, message, fields⟩]⟩

variable {α β : Type}

@[simp] theorem result_pure (a : α) : (pure a : Logged α).result = a := rfl

@[simp] theorem events_pure (a : α) : (pure a : Logged α).events = [] := rfl

@[simp] theorem result_bind (m : Logged α) (f : α → Logged β) :
    (m >>= f).result = (f m.result).result := rfl

@[simp] theorem events_bind (m : Logged α) (f : α → Logged β) :
    (m >>= f).events = m.events ++ (f m.result).events := rfl

end Logged

end Ssz
