import XmlStore.Database
import XmlStore.Markup.Name
import XmlStore.Tree.Call
import XmlStore.Tree.Scope

/-!
# Building a database

A builder takes node calls and commits each node to the end of the table, and to the indexes. The
open positions form a stack with the document at the bottom. The size of an element is known, and
set, when the element ends. Namespace declarations wait for the element that carries them, and
prefixes are resolved where they are used.

A refused call may have done a part of its work: an element whose attribute has an undeclared
prefix stays in the table, without being open, together with the attributes before that one.
-/

namespace XmlStore

structure Builder where
  options : IndexOptions
  chop : Bool := false
  metadata : Metadata := {}
  store : Store
  scope : Scope
  indexes : Indexes
  /-- The open positions, the document first. -/
  stack : Array Nat := #[]
  /-- The numbers of the qualifiers and URIs declared for the next element. -/
  pending : List (Nat × Nat) := []
  started : Bool := false
  finished : Bool := false
  height : Nat := 0
  elements : Nat := 0

namespace Builder

def ofOptions (options : IndexOptions) : Builder :=
  let (names, scope) := Scope.initial .empty
  { options, store := { names }, scope, indexes := .ofOptions options }

abbrev Action (α : Type) := EStateM BuildFault Builder α

def parent : Action Nat := do
  let builder ← get
  if !builder.started then throw .nodeBeforeStart
  if builder.finished then throw .nodeAfterEnd
  match builder.stack.back? with
  | none => throw .noOpenNode
  | some position => return position

def onStore {α : Type} (change : Store → Except BuildFault (α × Store)) : Action α := do
  let (result, store) ← MonadExcept.ofExcept (change (← get).store)
  modify fun builder => { builder with store }
  return result

def commit (node : Node) : Action Nat := onStore (·.push node)

/-- Adds a value to the buffer of the table and tells its span. -/
def keep (value : Bytes) : Action Span := onStore (·.addValue value)

def measure (n : Nat) (counted : Counted) : Action Nat :=
  MonadExcept.ofExcept (Store.entry n counted)

/-- Counts a depth that has been reached. -/
def reach (depth : Nat) : Action Unit :=
  modify fun builder => { builder with height := max builder.height depth }

def intern (name : Bytes) : Action Nat := do
  let (id, names) := (← get).store.names.intern name
  modify fun builder => { builder with store := { builder.store with names } }
  return id

def namespace? (builder : Builder) (qualifier : Bytes) : Option Nat :=
  (builder.store.names.find? qualifier).bind builder.scope.resolve?

/-- The number of the namespace URI of a qualified name. A name without a qualifier is in the
default namespace if it names an element, and in none if it names an attribute. -/
def resolve (name : Bytes) (isAttribute : Bool) : Action Nat := do
  let builder ← get
  match (QName.ofBytes name).qualifier with
  | some qualifier =>
    match builder.namespace? qualifier with
    | some uri => return uri
    | none => throw (.undeclaredQualifier qualifier)
  | none => return if isAttribute then 0 else (builder.scope.resolve? 0).getD 0

def leaf (content : Span → Content) (value : Bytes) : Action Nat := do
  let parent ← parent
  let depth := (← get).stack.size
  let span ← keep value
  let level ← measure depth .depth
  let position ← commit { parent := some parent, depth := level, content := content span }
  reach depth
  return position

def startDocument (name : Bytes) : Action Unit := do
  if (← get).started then throw .startedTwice
  modify fun builder => { builder with started := true }
  let span ← keep name
  let position ← commit { parent := none, depth := 0, content := .document span }
  modify fun builder => { builder with
    stack := builder.stack.push position
    metadata :=
      if builder.metadata.name.isEmpty then { builder.metadata with name := Utf8.lossy name }
      else builder.metadata }

def endDocument : Action Unit := do
  let _ ← parent
  let builder ← get
  if builder.stack.size > 1 then throw (.unclosedElements (builder.stack.size - 1))
  if !builder.pending.isEmpty then throw .danglingNamespace
  let size ← measure builder.store.size .nodes
  set { builder with
    store := builder.store.close 0 size
    stack := #[]
    finished := true }

def bindPending (depth : Nat) : Action Unit :=
  modify fun builder => { builder with
    scope := builder.pending.foldl (fun scope ns => scope.declare ns.1 ns.2 depth) builder.scope
    pending := [] }

def recordNamespaces (position depth : Nat) : Action Unit :=
  modify fun builder => { builder with
    store := (builder.scope.declaredAt depth).foldl
      (fun store ns => store.declareNamespace position ns.1 ns.2) builder.store }

def addAttribute (element depth : Nat) (att : Attribute) : Action Unit := do
  let uri ← resolve att.name true
  let name ← intern att.name
  let span ← keep att.value
  let position ← commit { parent := some element, depth, content := .attr name uri span }
  modify fun builder => { builder with
    indexes := builder.indexes.addAttribute position att.name att.value }
  reach depth

def startElement (name : Bytes) (attributes : List Attribute) : Action Unit := do
  let parent ← parent
  let depth := (← get).stack.size
  bindPending depth
  let uri ← resolve name false
  let id ← intern name
  let level ← measure depth .depth
  let count ← measure attributes.length .attributes
  let position ← commit
    { parent := some parent, depth := level, content := .element id uri count }
  modify fun builder => { builder with indexes := builder.indexes.enterElement name }
  recordNamespaces position depth
  attributes.forM (addAttribute position (level + 1))
  modify fun builder => { builder with
    stack := builder.stack.push position
    elements := builder.elements + 1 }
  reach depth

def endElement (name : Bytes) : Action Unit := do
  let position ← parent
  let builder ← get
  if builder.stack.size < 2 then throw (.nothingToClose name)
  let expected := builder.store.name position
  if expected ≠ name then throw (.mismatchedClose name expected)
  let size ← measure builder.store.size .nodes
  set { builder with
    store := builder.store.close position (size - position)
    stack := builder.stack.pop
    scope := builder.scope.leave (builder.stack.size - 1)
    indexes := builder.indexes.leaveElement }

/-- An empty text is no node, and neither is white space outside the root element or, unless it is
raw, where it is dropped. -/
def text [Segmenter] (content : Bytes) (raw : Bool) : Action Unit := do
  if content.isEmpty then return
  let builder ← get
  if content.all isSpace && ((builder.chop && !raw) || builder.stack.size == 1) then
    let _ ← parent
  else
    let position ← leaf .text content
    modify fun builder => { builder with indexes := builder.indexes.addText position content }

def other (kind : NodeKind) (content : Span → Content) (value : Bytes) : Action Unit := do
  let _ ← leaf content value
  modify fun builder => { builder with indexes := builder.indexes.addLeaf kind }

def declareNamespace (qualifier uri : Bytes) : Action Unit := do
  let _ ← parent
  let qualifier ← intern qualifier
  let uri ← intern uri
  modify fun builder => { builder with pending := builder.pending ++ [(qualifier, uri)] }

def take [Segmenter] : Receiver Builder
  | .startDocument name => startDocument name
  | .endDocument => endDocument
  | .startElement name attributes => startElement name attributes
  | .endElement name => endElement name
  | .text content raw => text content raw
  | .comment content => other .comment .comment content
  | .instruction content => other .instruction .instruction content
  | .declareNamespace qualifier uri => declareNamespace qualifier uri

def size (builder : Builder) : Nat := builder.store.size

def finish (builder : Builder) : Except BuildFault Database :=
  if builder.finished then
    .ok {
      store := builder.store
      indexes := builder.indexes
      metadata := { builder.metadata with
        nodes := builder.store.size
        height := builder.height
        documents := 1
        chop := builder.chop
        storeSize := builder.store.footprint
        time := 0
        paths := builder.options.paths
        texts := builder.options.texts
        attributes := builder.options.attributes
        words := builder.options.words
        fuzzy := builder.options.words && builder.options.fuzzy
        stale := false } }
  else .error .unfinished

end Builder

end XmlStore
