import XmlStore.Error
import XmlStore.Tree.Names

/-!
# The node table

The nodes of a document in document order. A node is known by its position; what lies below it
takes the positions right after it, an element's attributes first. The size of a node counts the
node and everything below it, so that the next sibling is found by one addition. Names are kept
among the names, and values end to end in one buffer.
-/

namespace XmlStore

inductive NodeKind where
  | document
  | element
  | attr
  | text
  | comment
  | instruction
  deriving DecidableEq, Repr

def NodeKind.label : NodeKind → String
  | .document => "Document"
  | .element => "Element"
  | .attr => "Attribute"
  | .text => "Text"
  | .comment => "Comment"
  | .instruction => "ProcessingInstruction"

/-- What a node holds besides its place. Names and URIs are given by their numbers, and values by
their spans. -/
inductive Content where
  | document (name : Span)
  | element (name uri attributes : Nat)
  | attr (name uri : Nat) (value : Span)
  | text (value : Span)
  | comment (value : Span)
  | instruction (value : Span)
  deriving DecidableEq, Repr

namespace Content

def kind : Content → NodeKind
  | .document _ => .document
  | .element _ _ _ => .element
  | .attr _ _ _ => .attr
  | .text _ => .text
  | .comment _ => .comment
  | .instruction _ => .instruction

/-- The number of the name; zero, the empty string, for what has none. -/
def nameId : Content → Nat
  | .element name _ _ | .attr name _ _ => name
  | _ => 0

def uriId : Content → Nat
  | .element _ uri _ | .attr _ uri _ => uri
  | _ => 0

def attributeCount : Content → Nat
  | .element _ _ attributes => attributes
  | _ => 0

def value? : Content → Option Span
  | .element _ _ _ => none
  | .document value | .attr _ _ value | .text value | .comment value | .instruction value =>
    some value

end Content

structure Node where
  /-- The position of the parent; only the document has none. -/
  parent : Option Nat
  depth : Nat
  size : Nat := 1
  content : Content
  deriving DecidableEq, Repr

def Node.kind (node : Node) : NodeKind := node.content.kind

structure NamespaceDeclaration where
  position : Nat
  qualifier : Nat
  uri : Nat
  deriving DecidableEq, Repr

/-- The place in `[low, high)` from which on the items of a table no longer pass, if those before
them do. Each probe halves what is left. -/
def partitionIn {α : Type} (passes : α → Bool) (table : Array α) (low high : Nat) : Nat :=
  if low < high then
    let mid := (low + high) / 2
    if (table[mid]?).any passes then partitionIn passes table (mid + 1) high
    else partitionIn passes table low mid
  else low
termination_by high - low
decreasing_by all_goals omega

def partitionPoint {α : Type} (passes : α → Bool) (table : Array α) : Nat :=
  partitionIn passes table 0 table.size

structure Store where
  nodes : Array Node := #[]
  values : Array UInt8 := #[]
  names : Names := .empty
  /-- In the order of positions. -/
  namespaces : Array NamespaceDeclaration := #[]

namespace Store

def size (store : Store) : Nat := store.nodes.size

def entry (n : Nat) (counted : Counted) : Except BuildFault Nat :=
  if n ≤ maxEntry then .ok n else .error (.exceeded counted)

def withNode (store : Store) (node : Node) : Store :=
  { store with nodes := store.nodes.push node }

def push (store : Store) (node : Node) : Except BuildFault (Nat × Store) := do
  let position ← entry store.size .nodes
  return (position, store.withNode node)

def withValue (store : Store) (value : Bytes) : Store :=
  { store with values := store.values ++ value }

def addValue (store : Store) (value : Bytes) : Except BuildFault (Span × Store) := do
  let start ← entry store.values.size .values
  let stop ← entry (store.values.size + value.length) .values
  return (⟨start, stop - start⟩, store.withValue value)

def valueAt (store : Store) (span : Span) : Bytes :=
  (store.values.extract span.start span.stop).toList

def close (store : Store) (position size : Nat) : Store :=
  { store with nodes := store.nodes.modify position fun node => { node with size } }

def declareNamespace (store : Store) (position qualifier uri : Nat) : Store :=
  { store with namespaces := store.namespaces.push ⟨position, qualifier, uri⟩ }

def node? (store : Store) (position : Nat) : Option Node := store.nodes[position]?

def kind? (store : Store) (position : Nat) : Option NodeKind := (store.node? position).map (·.kind)

def name (store : Store) (position : Nat) : Bytes :=
  match store.node? position with
  | some node => store.names.get node.content.nameId
  | none => []

def uri (store : Store) (position : Nat) : Bytes :=
  match store.node? position with
  | some node => store.names.get node.content.uriId
  | none => []

def value (store : Store) (position : Nat) : Bytes :=
  match (store.node? position).bind (·.content.value?) with
  | some span => store.valueAt span
  | none => []

def depth (store : Store) (position : Nat) : Nat :=
  match store.node? position with
  | some node => node.depth
  | none => 0

def parent? (store : Store) (position : Nat) : Option Nat :=
  (store.node? position).bind (·.parent)

def siblings (store : Store) (next stop : Nat) : List Nat :=
  if next < stop then
    match store.node? next with
    | some node => next :: siblings store (next + max node.size 1) stop
    | none => []
  else []
termination_by stop - next
decreasing_by omega

/-- The children of a node, attributes not among them. -/
def children (store : Store) (position : Nat) : List Nat :=
  match store.node? position with
  | some node =>
    store.siblings (position + 1 + node.content.attributeCount) (position + node.size)
  | none => []

def attributes (store : Store) (position : Nat) : List Nat :=
  match store.node? position with
  | some node => List.range' (position + 1) node.content.attributeCount
  | none => []

def attribute? (store : Store) (position : Nat) (name : Bytes) : Option Bytes :=
  ((store.attributes position).find? fun att => store.name att == name).map store.value

/-- The text of a document or element is that of all text nodes below it; any other node has its
value. -/
def stringValue (store : Store) (position : Nat) : Bytes :=
  match store.node? position with
  | none => []
  | some node =>
    match node.kind with
    | .document | .element =>
      let texts := (List.range' (position + 1) (node.size - 1)).filter fun p =>
        store.kind? p == some .text
      texts.flatMap store.value
    | _ => store.value position

/-- The qualifiers and URIs that an element declares, in order. Its declarations stand together,
after those of the elements before it. -/
def namespacesOf (store : Store) (position : Nat) : List (Bytes × Bytes) :=
  let first := partitionPoint (fun ns => decide (ns.position < position)) store.namespaces
  ((store.namespaces.toList.drop first).takeWhile fun ns => ns.position == position).map fun ns =>
    (store.names.get ns.qualifier, store.names.get ns.uri)

/-- The bytes that the tables take: 36 for a node, 12 for a namespace declaration, and the values
and names. -/
def footprint (store : Store) : Nat :=
  36 * store.size + store.values.size + store.names.footprint + 12 * store.namespaces.size

end Store

end XmlStore
