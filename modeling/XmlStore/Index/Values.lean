import XmlStore.Index.Ascending
import XmlStore.Octets

/-!
# Index of values

For each value the positions of the nodes that have it. Values above a length are only counted.
-/

namespace XmlStore

structure ValueIndex where
  maxLength : Nat
  /-- The positions with each value, the latest first. -/
  entries : Table Bytes (List Nat) := []
  skipped : Nat := 0
  deriving DecidableEq, Repr

namespace ValueIndex

def covers (index : ValueIndex) (value : Bytes) : Bool := value.length ≤ index.maxLength

def add (index : ValueIndex) (value : Bytes) (position : Nat) : ValueIndex :=
  if index.covers value then
    { index with entries := index.entries.update value [] (position :: ·) }
  else { index with skipped := index.skipped + 1 }

def lookup (index : ValueIndex) (value : Bytes) : List Nat :=
  ascending (fun a b => a < b) ((index.entries.lookup value).getD [])

def size (index : ValueIndex) : Nat := index.entries.length

end ValueIndex

end XmlStore
