import XmlStore.Event
import XmlStore.Tree.Call
import XmlStore.Tree.Packed

/-!
# From events to node calls

Character data and namespace declarations wait until the next structural event. Then the text is
passed on in one call, after it each declaration in order, and last the event itself. Text goes
first because it belongs before the element whose namespaces are declared. Comments and
processing instructions of a document type declaration are dropped.
-/

namespace XmlStore

structure Assembly (σ : Type) where
  receiver : σ
  name : Bytes
  /-- The attributes of the latest element, in a buffer that the next one refills. -/
  attributes : PackedAttributes := {}
  text : TextRun := {}
  namespaces : List (Bytes × Bytes) := []
  inDoctype : Bool := false
  started : Bool := false
  ended : Bool := false
  depth : Nat := 0
  elements : Nat := 0

namespace Assembly

variable {σ : Type}

def send (receive : Receiver σ) (call : Call) : EStateM Error (Assembly σ) Unit := fun state =>
  match receive call state.receiver with
  | .ok () receiver => .ok () { state with receiver }
  | .error fault receiver => .error (.build fault) { state with receiver }

def flushText (receive : Receiver σ) : EStateM Error (Assembly σ) Unit := do
  let run := (← get).text
  if run.isEmpty then return
  match run.ensureComplete with
  | .error fault => throw (.encoding fault)
  | .ok () =>
    send receive (.text run.text false)
    modify fun state => { state with text := {} }

/-- Passes the waiting namespace declarations on. They wait no longer, whether or not one of them
is refused. -/
def flushNamespaces (receive : Receiver σ) : EStateM Error (Assembly σ) Unit := do
  let waiting := (← get).namespaces
  modify fun state => { state with namespaces := [] }
  waiting.forM fun declared => send receive (.declareNamespace declared.1 declared.2)

def flush (receive : Receiver σ) : EStateM Error (Assembly σ) Unit := do
  flushText receive
  flushNamespaces receive

def ensureOpen (kind : EventKind) : EStateM Error (Assembly σ) Unit := do
  let state ← get
  if !state.started then throw (.order (.beforeStart kind))
  if state.ended then throw (.order (.afterEnd kind))

def startDocument (receive : Receiver σ) : EStateM Error (Assembly σ) Unit := do
  if (← get).started then throw (.order .startedTwice)
  modify fun state => { state with started := true }
  send receive (.startDocument (← get).name)

def endDocument (receive : Receiver σ) : EStateM Error (Assembly σ) Unit := do
  ensureOpen .documentEnd
  let depth := (← get).depth
  if depth ≠ 0 then throw (.order (.endedWithOpenElements depth))
  flush receive
  send receive .endDocument
  modify fun state => { state with ended := true }

def startElement (receive : Receiver σ) (name : Bytes) (attributes : List Attribute) :
    EStateM Error (Assembly σ) Unit := do
  ensureOpen .elementStart
  flush receive
  let packed := PackedAttributes.ofList attributes
  modify fun state => { state with attributes := packed }
  send receive (.startElement name packed.toList)
  modify fun state => { state with depth := state.depth + 1, elements := state.elements + 1 }

def endElement (receive : Receiver σ) (name : Bytes) : EStateM Error (Assembly σ) Unit := do
  ensureOpen .elementEnd
  if (← get).depth = 0 then throw (.order (.unmatchedEnd name))
  flush receive
  send receive (.endElement name)
  modify fun state => { state with depth := state.depth - 1 }

def addText (chunk : Chunk) : EStateM Error (Assembly σ) Unit := do
  ensureOpen .characterData
  fun state =>
    match TextRun.push chunk state.text with
    | .ok () text => .ok () { state with text }
    | .error fault text => .error (.encoding fault) { state with text }

/-- A comment or an instruction: dropped inside a document type declaration. -/
def leaf (receive : Receiver σ) (kind : EventKind) (call : Call) :
    EStateM Error (Assembly σ) Unit := do
  if (← get).inDoctype then return
  ensureOpen kind
  flush receive
  send receive call

def declareNamespace (qualifier uri : Bytes) : EStateM Error (Assembly σ) Unit := do
  ensureOpen .namespaceDeclaration
  modify fun state => { state with namespaces := state.namespaces ++ [(qualifier, uri)] }

def handle (receive : Receiver σ) : Handler (Assembly σ)
  | .startDocument => startDocument receive
  | .endDocument => endDocument receive
  | .startElement name attributes => startElement receive name attributes
  | .endElement name => endElement receive name
  | .text chunk => addText chunk
  | .comment text => leaf receive .comment (.comment text)
  | .instruction target data =>
    leaf receive .instruction (.instruction (target ++ 0x20 :: data))
  | .declareNamespace qualifier uri => declareNamespace qualifier uri
  | .startDoctype _ => modify fun state => { state with inDoctype := true }
  | .endDoctype => modify fun state => { state with inDoctype := false }

end Assembly

end XmlStore
