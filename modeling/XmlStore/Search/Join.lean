import XmlStore.Search.Hit

/-!
# Searching for several tokens

A cursor walks the postings of one token and groups them by node. A join hands out the nodes that
all of its cursors reach: each cursor is moved up to the largest node that any of them has
reached, until all stand on the same node.
-/

namespace XmlStore

structure Cursor where
  rest : List Posting
  deriving DecidableEq, Repr

namespace Cursor

def remaining (cursor : Cursor) : Nat := cursor.rest.length

def fault? (store : Store) (posting : Posting) : Option QueryFault :=
  match store.kind? posting.node with
  | some .text => none
  | some kind =>
    some (.corrupt ("posting for node " ++ toString posting.node ++ " points to a " ++
      kind.label ++ " node"))
  | none =>
    some (.corrupt ("posting for node " ++ toString posting.node ++ " beyond store size " ++
      toString store.size))

/-- Takes all postings of the next node. Faulty ones stay where they are. -/
def next (store : Store) : Source Cursor := fun cursor =>
  match cursor.rest with
  | [] => .ok none cursor
  | first :: _ =>
    match fault? store first with
    | some fault => .error fault cursor
    | none =>
      let positions := (cursor.rest.takeWhile fun p => p.node == first.node).map (·.position)
      .ok (some { node := first.node, positions, score := positions.length })
        ⟨cursor.rest.drop positions.length⟩

end Cursor

/-- A cursor with the hit that it stands on, if it has been moved since the last result. -/
structure Joined where
  cursor : Cursor
  head : Option Hit := none
  deriving DecidableEq, Repr

/-- Moves on to the first hit at the target or behind it, unless the cursor stands there already.
Every step takes a posting, so `fuel` need not exceed the number of postings left by more than
one. -/
def Joined.advance (store : Store) (target : Nat) : (fuel : Nat) → Source Joined
  | 0, joined => .ok none joined
  | fuel + 1, joined =>
    match joined.head.filter fun hit => target ≤ hit.node with
    | some hit => .ok (some hit) joined
    | none =>
      match joined.cursor.next store with
      | .error fault cursor => .error fault { joined with cursor }
      | .ok none cursor => .ok none { joined with cursor }
      | .ok (some hit) cursor => advance store target fuel { cursor, head := some hit }

structure Join where
  members : List Joined
  done : Bool
  deriving DecidableEq, Repr

namespace Join

def ofCursors (cursors : List Cursor) : Join :=
  { members := cursors.map fun cursor => { cursor }, done := cursors.isEmpty }

structure Round where
  target : Nat
  /-- No cursor but the first went beyond the target, so that all of them stand on it. -/
  aligned : Bool
  deriving DecidableEq, Repr

/-- Moves each cursor up to the largest node reached so far, unless one of them is at its end. -/
def round (store : Store) (isFirst : Bool) (target : Nat) :
    List Joined → EStateM.Result QueryFault (List Joined) (Option Round)
  | [] => .ok (some { target, aligned := true }) []
  | joined :: rest =>
    match joined.advance store target (joined.cursor.remaining + 1) with
    | .error fault joined => .error fault (joined :: rest)
    | .ok none joined => .ok none (joined :: rest)
    | .ok (some hit) joined =>
      let beyond := target < hit.node
      match round store false (if beyond then hit.node else target) rest with
      | .error fault rest => .error fault (joined :: rest)
      | .ok none rest => .ok none (joined :: rest)
      | .ok (some others) rest =>
        let aligned := others.aligned && (isFirst || !beyond)
        .ok (some { others with aligned }) (joined :: rest)

/-- Repeats rounds until the cursors are aligned. Every round but the first takes a posting, so
`fuel` need not exceed the number of postings left by more than two. -/
def align (store : Store) (target : Nat) :
    (fuel : Nat) → List Joined → EStateM.Result QueryFault (List Joined) (Option Nat)
  | 0, members => .ok none members
  | fuel + 1, members =>
    match round store true target members with
    | .error fault members => .error fault members
    | .ok none members => .ok none members
    | .ok (some result) members =>
      if result.aligned then .ok (some result.target) members
      else align store result.target fuel members

def remaining (join : Join) : Nat :=
  join.members.foldr (fun joined total => joined.cursor.remaining + total) 0

def merge (node : Nat) (hits : List Hit) : Hit :=
  { node
    positions := ascending (fun a b => a < b) (hits.flatMap (·.positions))
    score := hits.foldr (fun hit total => hit.score + total) 0 }

/-- The next node that all cursors reach. After the last one the join stays at its end. -/
def next (store : Store) : Source Join := fun join =>
  if join.done then .ok none join
  else
    match align store 0 (join.remaining + 2) join.members with
    | .error fault members => .error fault { join with members }
    | .ok none members => .ok none { members, done := true }
    | .ok (some node) members =>
      let members' := members.map fun joined => { joined with head := none }
      .ok (some (merge node (members.filterMap (·.head)))) { join with members := members' }

end Join

end XmlStore
