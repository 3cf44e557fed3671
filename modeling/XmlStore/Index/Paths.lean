import XmlStore.Tree.Store

/-!
# Summary of paths

The tree of the different paths from the document to its nodes, each with the number of nodes that
have it. A path is told by the kinds and names of its steps; text, comments and instructions have
no name.
-/

namespace XmlStore

structure PathNode where
  name : Bytes
  kind : NodeKind
  parent : Option Nat
  children : List Nat := []
  count : Nat
  depth : Nat
  deriving DecidableEq, Repr

/-- The path nodes by number, the document first, and the open elements, innermost first. -/
structure PathSummary where
  nodes : Array PathNode
  openPath : List Nat
  deriving DecidableEq, Repr

namespace PathSummary

def initial : PathSummary :=
  { nodes := #[{ name := [], kind := .document, parent := none, count := 1, depth := 0 }]
    openPath := [] }

def current (summary : PathSummary) : Nat := summary.openPath.head?.getD 0

def child? (summary : PathSummary) (parent : Nat) (kind : NodeKind) (name : Bytes) : Option Nat :=
  (summary.nodes[parent]?).bind fun node =>
    node.children.find? fun id =>
      summary.nodes[id]?.any fun child => child.kind == kind && child.name == name

def count (summary : PathSummary) (kind : NodeKind) (name : Bytes) : Nat × PathSummary :=
  let parent := summary.current
  match summary.child? parent kind name with
  | some id =>
    (id, { summary with
      nodes := summary.nodes.modify id fun node => { node with count := node.count + 1 } })
  | none =>
    let id := summary.nodes.size
    let depth := (summary.nodes[parent]?.map (·.depth)).getD 0 + 1
    let nodes := summary.nodes.modify parent fun node =>
      { node with children := node.children ++ [id] }
    let added : PathNode := { name, kind, parent := some parent, count := 1, depth }
    (id, { summary with nodes := nodes.push added })

def enter (summary : PathSummary) (name : Bytes) : PathSummary :=
  let (id, summary) := summary.count .element name
  { summary with openPath := id :: summary.openPath }

def leave (summary : PathSummary) : PathSummary :=
  { summary with openPath := summary.openPath.tail }

def addLeaf (summary : PathSummary) (kind : NodeKind) (name : Bytes) : PathSummary :=
  (summary.count kind name).2

def size (summary : PathSummary) : Nat := summary.nodes.size

def isEmpty (summary : PathSummary) : Bool := summary.size ≤ 1

def height (summary : PathSummary) : Nat :=
  summary.nodes.toList.foldl (fun height node => max height node.depth) 0

def countNamed (summary : PathSummary) (name : Bytes) : Nat :=
  let named := summary.nodes.toList.filter fun node => node.kind == .element && node.name == name
  named.foldl (fun total node => total + node.count) 0

def splitSlashes : Bytes → List Bytes
  | [] => [[]]
  | b :: rest =>
    if b == 0x2F then [] :: splitSlashes rest
    else
      match splitSlashes rest with
      | [] => [[b]]
      | step :: steps => (b :: step) :: steps

def readStep (step : Bytes) : NodeKind × Bytes :=
  if step = ascii "text()" then (.text, [])
  else if step = ascii "comment()" then (.comment, [])
  else if step = ascii "processing-instruction()" then (.instruction, [])
  else
    match step with
    | 0x40 :: name => (.attr, name)
    | _ => (.element, step)

def follow? (summary : PathSummary) (id : Nat) : List (NodeKind × Bytes) → Option Nat
  | [] => some id
  | (kind, name) :: steps => do
    let child ← summary.child? id kind name
    follow? summary child steps

/-- The path node of a written path such as `/r/item/@id` or `/r/text()`. Empty steps do not
count. -/
def lookup? (summary : PathSummary) (path : Bytes) : Option PathNode := do
  let steps := ((splitSlashes path).filter fun step => !step.isEmpty).map readStep
  let id ← summary.follow? 0 steps
  summary.nodes[id]?

end PathSummary

end XmlStore
