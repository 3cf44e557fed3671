import XmlStore.Index.Ascending
import XmlStore.Text.EditDistance
import XmlStore.Text.Token

/-!
# Index of words

For each token the places where it occurs: the text node, and the position of the token in it.
The tolerant variant finds the places of all tokens within an edit distance.
-/

namespace XmlStore

structure Posting where
  node : Nat
  position : Nat
  deriving DecidableEq, Repr

def Posting.before (a b : Posting) : Bool :=
  a.node < b.node || (a.node == b.node && a.position < b.position)

theorem Posting.before_iff {a b : Posting} :
    a.before b ↔ a.node < b.node ∨ a.node = b.node ∧ a.position < b.position := by
  simp [before]

structure WordIndex where
  fuzzy : Bool
  /-- The occurrences of each token, the latest first. -/
  entries : Table Token (List Posting) := []
  texts : Nat := 0
  deriving DecidableEq, Repr

namespace WordIndex

variable [Segmenter]

def occurrences (node : Nat) (text : Bytes) : List (Token × Posting) :=
  (Token.ofBytes text).zipIdx.map fun occurrence => (occurrence.1, ⟨node, occurrence.2⟩)

def addOccurrence (entries : Table Token (List Posting)) (occurrence : Token × Posting) :
    Table Token (List Posting) :=
  entries.update occurrence.1 [] (occurrence.2 :: ·)

def add (index : WordIndex) (node : Nat) (text : Bytes) : WordIndex :=
  let found := occurrences node text
  { index with
    entries := found.foldl addOccurrence index.entries
    texts := if found.isEmpty then index.texts else index.texts + 1 }

def size (index : WordIndex) : Nat := index.entries.length

def postings (index : WordIndex) (token : Token) : List Posting :=
  ascending Posting.before ((index.entries.lookup token).getD [])

/-- The occurrences of every token within the edit distance, in order and each once, if the index
has the tolerant variant. -/
def fuzzyPostings? (index : WordIndex) (token : Token) (errors : Nat) : Option (List Posting) :=
  if index.fuzzy then
    let near := index.entries.filter fun entry =>
      EditDistance.lengthsWithin errors token entry.1 && EditDistance.within errors token entry.1
    some (ascending Posting.before (near.flatMap (·.2)))
  else none

end WordIndex

end XmlStore
