import XmlStore.Config
import XmlStore.Markup.Construct

/-!
# Reading a document in pieces

A parser takes a document in pieces of any size and keeps the bytes of a construct that is not
complete yet. What it does with a piece is a value: the events, each with the state of the parser
in which it occurs, and the state and the result at the end. Whoever receives the events may
refuse one; then the rest of them does not happen, and the parser is left as it was at that event.

Where the byte that ends a construct is known, pieces without it are put by and not looked at, so
that a long construct in many pieces is not read again for each of them.

After a fault the bytes of the failed piece are kept, and the next piece reads them again.
-/

namespace XmlStore

structure Parser where
  context : Context
  /-- Bytes that have been looked at and not been taken. -/
  buffer : Bytes := []
  /-- The pieces after the buffer, the latest first. -/
  later : List Bytes := []
  /-- The byte that the construct at the start of the buffer waits for, if one is known. -/
  awaited : Option UInt8 := none
  position : Nat := 0
  started : Bool := false
  finished : Bool := false
  deriving DecidableEq, Repr

structure Response where
  events : List (Parser × Event) := []
  parser : Parser
  result : Except Error Unit

namespace Parser

def ofOptions (options : ReadOptions) : Parser :=
  { context :=
      { entities := { limit := options.expansionLimit, passthrough := !options.expandEntities } } }

def depth (parser : Parser) : Nat := parser.context.path.length

def expanded (parser : Parser) : Nat := parser.context.entities.expanded

/-- The start of the document is the first event, before any byte is looked at. -/
def start (parser : Parser) : List (Parser × Event) × Parser :=
  if parser.started then ([], parser)
  else
    let parser := { parser with started := true }
    ([(parser, .startDocument)], parser)

def unread (parser : Parser) : Bytes := parser.buffer ++ parser.later.reverse.flatten

def gather (parser : Parser) : Parser :=
  { parser with buffer := parser.unread, later := [], awaited := none }

def process (parser : Parser) (last : Bool) : Response :=
  let parser := parser.gather
  let reading := readConstructs last parser.context parser.position parser.buffer
  let events := reading.events.map fun event => ({ parser with context := event.1 }, event.2)
  let parser := { parser with context := reading.context }
  match reading.outcome with
  | .error fault => { events, parser, result := .error fault }
  | .ok taken =>
    if last && taken < parser.buffer.length then
      { events, parser, result := .error (.malformed (parser.position + taken) .unexpectedEnd) }
    else
      let rest := parser.buffer.drop taken
      { events
        parser :=
          { parser with
            buffer := rest
            awaited := Construct.awaited? rest
            position := parser.position + taken }
        result := .ok () }

def feed (parser : Parser) (piece : Bytes) : Response :=
  if parser.finished then { parser, result := .error (.order .fedAfterFinish) }
  else
    let (opening, parser) := parser.start
    let waits := parser.awaited.any fun b => !piece.contains b
    let parser := { parser with later := piece :: parser.later }
    if waits then { events := opening, parser, result := .ok () }
    else
      let response := parser.process false
      { response with events := opening ++ response.events }

def unfinished? (parser : Parser) : Option Fault :=
  match parser.context.path with
  | name :: _ => some (.unclosedElement name)
  | [] => if parser.context.stage = .epilog then none else some .missingRoot

def finish (parser : Parser) : Response :=
  if parser.finished then { parser, result := .error (.order .finishedTwice) }
  else
    let (opening, parser) := parser.start
    let response := parser.process true
    let events := opening ++ response.events
    match response.result with
    | .error _ => { response with events }
    | .ok () =>
      match response.parser.unfinished? with
      | some fault =>
        { events
          parser := response.parser
          result := .error (.malformed response.parser.position fault) }
      | none =>
        let parser := { response.parser with finished := true }
        { events := events ++ [(parser, .endDocument)], parser, result := .ok () }

end Parser

structure Session (σ : Type) where
  parser : Parser
  receiver : σ

namespace Session

variable {σ : Type}

def deliver (handle : Handler σ) (response : Response) : EStateM Error (Session σ) Unit :=
  fun session => go response.events session.receiver
where
  go : List (Parser × Event) → σ → EStateM.Result Error (Session σ) Unit
    | [], receiver =>
      match response.result with
      | .ok () => .ok () { parser := response.parser, receiver }
      | .error fault => .error fault { parser := response.parser, receiver }
    | (parser, event) :: rest, receiver =>
      match handle event receiver with
      | .ok () receiver => go rest receiver
      | .error fault receiver => .error fault { parser, receiver }

def feed (handle : Handler σ) (piece : Bytes) : EStateM Error (Session σ) Unit := do
  deliver handle ((← get).parser.feed piece)

def finish (handle : Handler σ) : EStateM Error (Session σ) Unit := do
  deliver handle (← get).parser.finish

end Session

end XmlStore
