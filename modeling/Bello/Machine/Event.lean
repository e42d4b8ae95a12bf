import Bello.Decimal.Text

/- What a run tells about itself. -/
namespace Bello

/-- How much an event matters. -/
inductive Level where
  | trace
  | debug
  | warning
deriving DecidableEq

def Level.name : Level → String
  | trace => "TRACE"
  | debug => "DEBUG"
  | warning => "WARN"

/-- Something that happened while a program was read or run. A depth is the number of
    scopes after the event. -/
inductive Event where
  | lexed (tokens : Nat)
  | parsed (items : Nat)
  | builtinHidden (name : String)
  | registered (constants functions : Nat)
  | scopePushed (depth : Nat)
  | scopePopped (depth : Nat)
  | framePopped (depth : Nat)
  | counting (counter : String) (first last : Decimal)
  | called (name : String) (args : Nat)
deriving DecidableEq

namespace Event

def level : Event → Level
  | lexed _ | parsed _ | registered _ _ => .debug
  | builtinHidden _ => .warning
  | scopePushed _ | scopePopped _ | framePopped _ | counting _ _ _ | called _ _ => .trace

/-- The text of an event, its decimals written as `number` says. -/
def text (number : Decimal → String) : Event → String
  | lexed n => s!"lexed {n} tokens"
  | parsed n => s!"parsed program with {n} top-level items"
  | builtinHidden name =>
    s!"function '{name}' has the name of a built-in; calls will use the built-in"
  | registered constants functions =>
    s!"registered {constants} constants and {functions} functions"
  | scopePushed depth => s!"push scope (depth {depth})"
  | scopePopped depth => s!"pop scope (depth {depth})"
  | framePopped depth => s!"pop frame (depth {depth})"
  | counting counter first last => s!"for {counter} in {number first}..={number last}"
  | called name args => s!"call {name}({args} args)"

/-- The text in the log, where decimals have all their places. -/
def message (e : Event) : String := e.text Decimal.plain

end Event

end Bello
