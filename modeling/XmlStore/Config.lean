/-!
# Options

What a document may cost and how it is read, and which indexes are kept of it.
-/

namespace XmlStore

structure ReadOptions where
  /-- The number of references that may be replaced in one document. -/
  expansionLimit : Nat := 536870912
  /-- References to declared entities are replaced; otherwise they stay as they are written. -/
  expandEntities : Bool := true
  /-- Text that is only white space is dropped. -/
  chop : Bool := true
  chunkSize : Nat := 65536
  deriving DecidableEq, Repr

def ReadOptions.withChunkSize (options : ReadOptions) (size : Nat) : ReadOptions :=
  { options with chunkSize := max size 1 }

structure IndexOptions where
  paths : Bool := true
  texts : Bool := true
  attributes : Bool := true
  words : Bool := false
  /-- The word index also answers searches that tolerate errors. -/
  fuzzy : Bool := false
  /-- Texts and attribute values that are longer are not indexed by value. -/
  maxValueLength : Nat := 256
  deriving DecidableEq, Repr

namespace IndexOptions

def all : IndexOptions := { words := true, fuzzy := true }

def none : IndexOptions := { paths := false, texts := false, attributes := false }

def withWords (options : IndexOptions) (words fuzzy : Bool) : IndexOptions :=
  { options with words, fuzzy := words && fuzzy }

end IndexOptions

end XmlStore
