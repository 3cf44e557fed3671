import XmlStore.Search.Join

/-!
# Search expressions

An expression asks for the nodes with all words of a text, exactly or tolerantly, or negates
another one. It is evaluated to a sequence of hits that are computed as they are asked for.
-/

namespace XmlStore

inductive Expression where
  | words (text : List Char) (fuzzy : Bool)
  | negation (inner : Expression)
  deriving DecidableEq, Repr

inductive Hits where
  | none
  | token (cursor : Cursor)
  | tokens (join : Join)
  | negation (inner : Hits)
  deriving DecidableEq, Repr

namespace Hits

def next (store : Store) : Source Hits
  | .none => .ok Option.none .none
  | .token cursor =>
    match cursor.next store with
    | .ok hit cursor => .ok hit (.token cursor)
    | .error fault cursor => .error fault (.token cursor)
  | .tokens join =>
    match join.next store with
    | .ok hit join => .ok hit (.tokens join)
    | .error fault join => .error fault (.tokens join)
  | .negation inner =>
    match inner.next store with
    | .ok hit inner => .ok (hit.map Hit.flip) (.negation inner)
    | .error fault inner => .error fault (.negation inner)

/-- The number of postings left; every hit takes one at least. -/
def remaining : Hits → Nat
  | .none => 0
  | .token cursor => cursor.remaining
  | .tokens join => join.remaining
  | .negation inner => inner.remaining

def take (store : Store) : (fuel : Nat) → Hits → Except QueryFault (List Hit)
  | 0, _ => .ok []
  | fuel + 1, hits =>
    match hits.next store with
    | .error fault _ => .error fault
    | .ok Option.none _ => .ok []
    | .ok (some hit) hits => (take store fuel hits).map (hit :: ·)

def toList (store : Store) (hits : Hits) : Except QueryFault (List Hit) :=
  hits.take store (hits.remaining + 1)

end Hits

variable [Segmenter]

def distinctTokens (text : List Char) : List Token := (Token.ofText text).eraseDups

namespace Expression

/-- Whether the indexes are there is decided here, before the first hit. -/
def hits (db : Database) : Expression → Except QueryFault Hits
  | .words text fuzzy => do
    let cursors ← (distinctTokens text).mapM fun token => do
      return (⟨← db.postings token fuzzy⟩ : Cursor)
    match cursors with
    | [] => do
      let _ ← db.wordIndex fuzzy
      return Hits.none
    | [cursor] => return .token cursor
    | cursors => return .tokens (.ofCursors cursors)
  | .negation inner => do return .negation (← inner.hits db)

end Expression

def Database.search (db : Database) (expression : Expression) : Except QueryFault (List Hit) := do
  (← expression.hits db).toList db.store

end XmlStore
