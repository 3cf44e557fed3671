import XmlStore.Event
import XmlStore.Markup.Doctype

/-!
# Constructs

A document is read construct by construct: a run of text, a reference, a tag, and so on. Each
reading is a function of what is known about the document so far and of the bytes from here on.
It tells the events of the construct, what is known afterwards, and how many bytes were taken, or
that more bytes are needed. A construct that the bytes do not complete is a fault only if no more
bytes follow.
-/

namespace XmlStore

inductive Stage where
  | prolog
  | content
  | epilog
  deriving DecidableEq, Repr

structure Context where
  stage : Stage := .prolog
  /-- The names of the open elements, innermost first. -/
  path : List Bytes := []
  entities : Entities
  seenDoctype : Bool := false
  encoding : Option String := none
  deriving DecidableEq, Repr

/-- How far a reading has come; both count bytes. -/
inductive Progress where
  | advance (taken : Nat)
  /-- These bytes have been read, and those after them have to wait for more. -/
  | wait (taken : Nat)
  deriving DecidableEq, Repr

/-- A reading: each event with the context in which it occurs, the context at the end, and how far
the reading has come or the fault that stopped it. -/
structure Reading (α : Type) where
  events : List (Context × Event) := []
  context : Context
  outcome : Except Error α

namespace Context

variable {α : Type}

def fail (c : Context) (fault : Error) : Reading α := { context := c, outcome := .error fault }

def failAt (c : Context) (position : Nat) (fault : Fault) : Reading α :=
  c.fail (.malformed position fault)

def read (c : Context) (events : List Event) (taken : Nat) : Reading Progress :=
  { events := events.map (c, ·), context := c, outcome := .ok (.advance taken) }

def incomplete (c : Context) (here : Nat) (last : Bool) (fault : Fault) : Reading Progress :=
  if last then c.failAt here fault else { context := c, outcome := .ok (.wait 0) }

def leaveElement (c : Context) : Context :=
  if c.path.isEmpty then { c with stage := .epilog } else c

end Context

def normalizeLineEnds : Bytes → Bytes
  | [] => []
  | [b] => [if b == 0x0D then 0x0A else b]
  | b :: c :: rest =>
    if b == 0x0D && c == 0x0A then 0x0A :: normalizeLineEnds rest
    else (if b == 0x0D then 0x0A else b) :: normalizeLineEnds (c :: rest)

namespace Construct

/-- Text up to the next markup or reference. A carriage return at the end of the bytes waits,
because a line feed may follow it. Outside the root element only white space is allowed, and it
is no event. -/
def text (c : Context) (here : Nat) (last : Bool) (bs : Bytes) : Reading Progress :=
  let run := bs.takeWhile fun b => !(b == 0x3C || b == 0x26)
  let waits := !last && run.getLast? == some 0x0D && (bs.drop run.length).isEmpty
  let text := if waits then run.dropLast else run
  let outcome : Except Error Progress :=
    .ok (if waits then .wait text.length else .advance text.length)
  if c.stage = .content then
    if text.isEmpty then { context := c, outcome }
    else { events := [(c, .text (.utf8 (normalizeLineEnds text)))], context := c, outcome }
  else
    match text.findIdx? fun b => !isSpace b with
    | some i => c.failAt (here + i) .textOutsideRoot
    | none => { context := c, outcome }

/-- What may stand between the ampersand and the semicolon of a reference in content: a number
sign with letters and digits, or a name. -/
def isReference : Bytes → Bool
  | [] => false
  | b :: rest =>
    if b == 0x23 then !rest.isEmpty && rest.all fun d => isLetter d || isDigit d
    else isNameStart b && rest.all isNameByte

def reference (c : Context) (here : Nat) (last : Bool) (bs : Bytes) : Reading Progress :=
  match cutAt? (· == 0x3B) (bs.drop 1) with
  | none => c.incomplete here last .unterminatedReference
  | some (name, _) =>
    if !isReference name then c.failAt here .malformedReference
    else if c.stage ≠ .content then c.failAt here .referenceOutsideRoot
    else
      let expansion := c.entities.expandReference name
      let c := { c with entities := c.entities.after expansion }
      match expansion.fault with
      | some fault => c.fail (.reference fault)
      | none => c.read [.text (.utf8 expansion.output)] (name.length + 2)

def duplicate? (seen : List Bytes) : List Attribute → Option Bytes
  | [] => none
  | att :: rest =>
    if seen.contains att.name then some att.name else duplicate? (att.name :: seen) rest

/-- The events at the start of an element: its namespace declarations, then the element with its
other attributes. -/
def openingEvents (name : Bytes) (attributes : List Attribute) : List Event :=
  (attributes.filterMap fun att =>
      att.declares?.map fun qualifier => Event.declareNamespace qualifier att.value) ++
    [.startElement name (attributes.filter fun att => att.declares?.isNone)]

/-- A start tag, which begins with `<` and the first byte of a name. A slash at its end closes the
element at once. -/
def startTag (c : Context) (here : Nat) (last : Bool) (bs : Bytes) : Reading Progress :=
  match cutUnquoted? none (bs.drop 1) with
  | none => c.incomplete here last .unterminatedStartTag
  | some (tag, _) =>
    if c.stage = .epilog then c.failAt here .secondRoot
    else
      let closed := tag.getLast? == some 0x2F
      let body := if closed then tag.dropLast else tag
      let (name, rest) := spanName body
      let (entities, attributes) := readAttributes c.entities (here + 1 + body.length) rest
      let c := { c with stage := .content, entities }
      match attributes with
      | .error fault => c.fail fault
      | .ok attributes =>
        match duplicate? [] attributes with
        | some twice => c.failAt (here + 1 + name.length) (.duplicateAttribute twice)
        | none =>
          let taken := tag.length + 2
          if closed then
            { c.read (openingEvents name attributes ++ [.endElement name]) taken with
              context := c.leaveElement }
          else
            { c.read (openingEvents name attributes) taken with
              context := { c with path := name :: c.path } }

/-- An end tag, which begins with `</`. It closes the innermost element, also where its name is
not the expected one. -/
def endTag (c : Context) (here : Nat) (last : Bool) (bs : Bytes) : Reading Progress :=
  match cutAt? (· == 0x3E) (bs.drop 2) with
  | none => c.incomplete here last .unterminatedEndTag
  | some (tag, _) =>
    let name := trimEnd tag
    match c.path with
    | [] => c.failAt here (.unexpectedEndTag name)
    | expected :: path =>
      let c := { c with path }
      if name ≠ expected then c.failAt here (.mismatchedEndTag name expected)
      else { c.read [.endElement name] (tag.length + 3) with context := c.leaveElement }

def knownEncodings : List String :=
  ["UTF-8", "UTF8", "US-ASCII", "ASCII", "UTF-16", "UTF-16LE", "UTF-16BE"]

def declaredEncoding? (data : Bytes) : Except Fault (Option Bytes) :=
  match cut? (ascii "encoding") data with
  | none => .ok none
  | some (_, rest) =>
    match trimStart rest with
    | 0x3D :: afterEquals =>
      match trimStart afterEquals with
      | [] => .error .malformedXmlDeclaration
      | quote :: quoted =>
        if isQuote quote then
          match cutAt? (· == quote) quoted with
          | none => .error .malformedXmlDeclaration
          | some (value, _) => .ok (some value)
        else .error .malformedXmlDeclaration
    | _ => .error .malformedXmlDeclaration

/-- An XML declaration of `taken` bytes: only the encoding is kept, in upper case. -/
def xmlDeclaration (c : Context) (here taken : Nat) (data : Bytes) : Reading Progress :=
  if here ≠ 0 then c.failAt here .misplacedXmlDeclaration
  else
    match declaredEncoding? data with
    | .error fault => c.failAt here fault
    | .ok none => c.read [] taken
    | .ok (some value) =>
      let name := String.ofList ((Utf8.decodeLossy value).map Char.toUpper)
      if knownEncodings.contains name then { c with encoding := some name }.read [] taken
      else c.fail (.encoding (.unsupported name))

def instruction (c : Context) (here : Nat) (last : Bool) (bs : Bytes) : Reading Progress :=
  match cut? (ascii "?>") (bs.drop 2) with
  | none => c.incomplete here last .unterminatedInstruction
  | some (body, _) =>
    match readName? body with
    | none => c.failAt (here + 2) .instructionTarget
    | some (target, rest) =>
      let data := trimStart rest
      let taken := body.length + 4
      if target.map asciiUpper = ascii "XML" then xmlDeclaration c here taken data
      else c.read [.instruction target data] taken

def comment (c : Context) (here : Nat) (last : Bool) (bs : Bytes) : Reading Progress :=
  match cut? (ascii "-->") (bs.drop 4) with
  | none => c.incomplete here last .unterminatedComment
  | some (text, _) =>
    if (cut? (ascii "--") text).isSome || text.getLast? == some 0x2D then
      c.failAt here .doubleHyphen
    else c.read [.comment text] (text.length + 7)

def literalSection (c : Context) (here : Nat) (last : Bool) (bs : Bytes) : Reading Progress :=
  if c.stage ≠ .content then c.failAt here .sectionOutsideRoot
  else
    match cut? (ascii "]]>") (bs.drop 9) with
    | none => c.incomplete here last .unterminatedSection
    | some (text, _) => c.read [.text (.utf8 (normalizeLineEnds text))] (text.length + 12)

def subsetEvents (c : Context) : List SubsetItem → List (Context × Event) × Context
  | [] => ([], c)
  | .entity name text :: rest =>
    subsetEvents { c with entities := c.entities.declare name text } rest
  | .comment text :: rest =>
    let others := subsetEvents c rest
    ((c, .comment text) :: others.1, others.2)
  | .instruction target data :: rest =>
    let others := subsetEvents c rest
    ((c, .instruction target data) :: others.1, others.2)

def doctype (c : Context) (here : Nat) (last : Bool) (bs : Bytes) : Reading Progress :=
  if c.stage ≠ .prolog || c.seenDoctype then c.failAt here .misplacedDoctype
  else
    match cutDoctype? 0 none (bs.drop 2) with
    | none => c.incomplete here last .unterminatedDoctype
    | some (declaration, _) =>
      let c := { c with seenDoctype := true }
      match readDoctype (here + 2 + declaration.length) (declaration.drop 7) with
      | .error fault => c.fail fault
      | .ok doctype =>
        let (events, after) := subsetEvents c doctype.items
        { events := (c, .startDoctype doctype.name) :: events ++ [(after, .endDoctype)]
          context := after
          outcome := .ok (.advance (declaration.length + 3)) }

def declarationOpenings : List Bytes := [ascii "<!--", ascii "<![CDATA[", ascii "<!DOCTYPE"]

def declaration (c : Context) (here : Nat) (last : Bool) (bs : Bytes) : Reading Progress :=
  if declarationOpenings.any fun opening => bs.isPrefixOf opening && bs.length < opening.length then
    c.incomplete here last .truncatedMarkup
  else if (ascii "<!--").isPrefixOf bs then comment c here last bs
  else if (ascii "<![CDATA[").isPrefixOf bs then literalSection c here last bs
  else if (ascii "<!DOCTYPE").isPrefixOf bs then doctype c here last bs
  else c.failAt here .unknownDeclaration

def markup (c : Context) (here : Nat) (last : Bool) (bs : Bytes) : Reading Progress :=
  match bs[1]? with
  | none => c.incomplete here last .truncatedMarkup
  | some b =>
    if b == 0x2F then endTag c here last bs
    else if b == 0x3F then instruction c here last bs
    else if b == 0x21 then declaration c here last bs
    else if isNameStart b then startTag c here last bs
    else c.failAt (here + 1) .afterLessThan

/-- The construct at the start of the bytes, which stand at the position `here` of the document.
With `last`, no bytes follow. -/
def read (c : Context) (here : Nat) (last : Bool) (bs : Bytes) : Reading Progress :=
  match bs with
  | 0x3C :: _ => markup c here last bs
  | 0x26 :: _ => reference c here last bs
  | _ => text c here last bs

/-- The byte without which more bytes do not complete a construct that begins with these and that
they do not complete. The first bytes of markup may have to decide yet what it is. -/
def awaited? : Bytes → Option UInt8
  | 0x26 :: _ => some 0x3B
  | 0x3C :: rest => if rest[7]?.isSome then some 0x3E else none
  | _ => none

end Construct

def readConstructs (last : Bool) (c : Context) (here : Nat) (bs : Bytes) : Reading Nat :=
  if _hbs : bs = [] then { context := c, outcome := .ok 0 }
  else
    let reading := Construct.read c here last bs
    match reading.outcome with
    | .error fault => { reading with outcome := .error fault }
    | .ok (.wait taken) => { reading with outcome := .ok taken }
    | .ok (.advance taken) =>
      if _ht : taken = 0 then { reading with outcome := .ok 0 }
      else
        let rest := readConstructs last reading.context (here + taken) (bs.drop taken)
        { events := reading.events ++ rest.events
          context := rest.context
          outcome := rest.outcome.map (taken + ·) }
termination_by bs.length
decreasing_by
  have := List.length_pos_iff.mpr _hbs
  simp only [List.length_drop]
  omega

end XmlStore
