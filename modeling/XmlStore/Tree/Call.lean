import XmlStore.Markup.Attribute

/-!
# Node calls

A tree is described by one call per node in document order: text comes whole, and namespace
declarations precede the element that carries them. Whatever takes such calls may refuse one.
-/

namespace XmlStore

inductive Call where
  | startDocument (name : Bytes)
  | endDocument
  | startElement (name : Bytes) (attributes : List Attribute)
  | endElement (name : Bytes)
  /-- A raw text is kept even if it is white space. -/
  | text (content : Bytes) (raw : Bool)
  | comment (content : Bytes)
  /-- The target and the data of the instruction, with one space between. -/
  | instruction (content : Bytes)
  | declareNamespace (qualifier uri : Bytes)
  deriving DecidableEq, Repr

/-- What takes calls. A refusal leaves the state in which the receiver is to go on. -/
abbrev Receiver (σ : Type) := Call → EStateM BuildFault σ Unit

/-- A receiver that keeps the calls it takes, and refuses one of them if told so. -/
structure CallLog where
  reversed : List Call := []
  seen : Nat := 0
  /-- The call to refuse, counted from zero. -/
  refuses : Option Nat := none
  deriving DecidableEq, Repr

namespace CallLog

def calls (log : CallLog) : List Call := log.reversed.reverse

def push (log : CallLog) (call : Call) : CallLog := { log with reversed := call :: log.reversed }

@[simp] theorem calls_push (log : CallLog) (call : Call) :
    (log.push call).calls = log.calls ++ [call] := by
  simp [calls, push]

def record : Receiver CallLog := fun call log =>
  let next := { log with seen := log.seen + 1 }
  if log.refuses = some log.seen then .error (.refused "injected failure") next
  else .ok () (next.push call)

end CallLog

end XmlStore
