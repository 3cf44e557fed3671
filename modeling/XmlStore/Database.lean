import XmlStore.Database.Metadata
import XmlStore.Index.Family
import XmlStore.Tree.Store

/-!
# Databases

A finished document: its node table, its indexes, and its metadata. An index answers only if it
was built and is not out of date.
-/

namespace XmlStore

inductive IndexKind where
  | path
  | text
  | attr
  | fullText
  | fuzzyFullText
  deriving DecidableEq, Repr

def IndexKind.label : IndexKind → String
  | .path => "path"
  | .text => "text"
  | .attr => "attribute"
  | .fullText => "full-text"
  | .fuzzyFullText => "fuzzy full-text"

inductive QueryFault where
  | missingIndex (kind : IndexKind)
  | stale
  | corrupt (reason : String)
  deriving DecidableEq, Repr

def QueryFault.message : QueryFault → String
  | .missingIndex kind => "no " ++ kind.label ++ " index available"
  | .stale => "indexes are out of date"
  | .corrupt reason => "corrupt index: " ++ reason

structure Database where
  store : Store
  indexes : Indexes
  metadata : Metadata

namespace Database

def invalidate (db : Database) : Database :=
  { db with metadata := { db.metadata with stale := true } }

/-- An index that is recorded as built. -/
def index? {α : Type} (db : Database) (kind : IndexKind) (recorded : Bool) (index : Option α) :
    Except QueryFault α :=
  if db.metadata.stale then .error .stale
  else
    match recorded, index with
    | true, some index => .ok index
    | _, _ => .error (.missingIndex kind)

def pathSummary (db : Database) : Except QueryFault PathSummary :=
  db.index? .path db.metadata.paths db.indexes.paths

def wordIndex (db : Database) (fuzzy : Bool) : Except QueryFault WordIndex := do
  let index ← db.index? .fullText db.metadata.words db.indexes.words
  if fuzzy && !(db.metadata.fuzzy && index.fuzzy) then .error (.missingIndex .fuzzyFullText)
  else .ok index

/-- An index of values has no answer for a value that is too long for it. -/
def valueLookup (db : Database) (kind : IndexKind) (recorded : Bool) (index : Option ValueIndex)
    (value : Bytes) : Except QueryFault (List Nat) := do
  let index ← db.index? kind recorded (index.filter (·.covers value))
  return index.lookup value

def textLookup (db : Database) (value : Bytes) : Except QueryFault (List Nat) :=
  db.valueLookup .text db.metadata.texts db.indexes.texts value

def attributeLookup (db : Database) (value : Bytes) : Except QueryFault (List Nat) :=
  db.valueLookup .attr db.metadata.attributes db.indexes.attributes value

/-- The places of a token, or of all tokens within its default number of errors. -/
def postings (db : Database) (token : Token) (fuzzy : Bool) : Except QueryFault (List Posting) := do
  let index ← db.wordIndex fuzzy
  if fuzzy then
    match index.fuzzyPostings? token token.defaultErrors with
    | some found => return found
    | none => .error (.missingIndex .fuzzyFullText)
  else return index.postings token

end Database

end XmlStore
