import XmlStore.Tree.Packed

/-!
# Names

Names, namespace qualifiers and namespace URIs are kept once each and are known by numbers. The
empty string has the number zero, and every other string gets the next free number when it is
first seen. A string is found again through its hash; strings that share one are told apart by
their bytes.
-/

namespace XmlStore

structure Names where
  hash : Bytes → UInt64
  buffer : Bytes := []
  /-- Where each string is; the index is its number. -/
  spans : Array Span := #[⟨0, 0⟩]
  /-- The hash and the number of each string but the empty one. -/
  hashed : List (UInt64 × Nat) := []

namespace Names

def mix (bs : Bytes) : UInt64 :=
  bs.foldl (fun h b => (h ^^^ b.toUInt64) * 0x100000001B3) 0xCBF29CE484222325

def empty : Names := { hash := mix }

/-- The string of a number; an unknown number stands for the empty string. -/
def get (names : Names) (id : Nat) : Bytes :=
  match names.spans[id]? with
  | some span => span.read names.buffer
  | none => []

def find? (names : Names) (text : Bytes) : Option Nat :=
  if text.isEmpty then some 0
  else
    let h := names.hash text
    (names.hashed.find? fun entry => entry.1 == h && names.get entry.2 == text).map (·.2)

def intern (names : Names) (text : Bytes) : Nat × Names :=
  match names.find? text with
  | some id => (id, names)
  | none =>
    let id := names.spans.size
    (id,
      { names with
        buffer := names.buffer ++ text
        spans := names.spans.push (Span.appended names.buffer text)
        hashed := (names.hash text, id) :: names.hashed })

def size (names : Names) : Nat := names.spans.size

def isEmpty (names : Names) : Bool := names.size ≤ 1

def toList (names : Names) : List Bytes := names.spans.toList.map (·.read names.buffer)

/-- The bytes that the strings and their places take; a place takes eight. -/
def footprint (names : Names) : Nat := names.buffer.length + 8 * names.size

end Names

end XmlStore
