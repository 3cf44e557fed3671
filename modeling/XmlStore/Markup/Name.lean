import XmlStore.Octets

/-!
# Names

The bytes that names are made of, and the division of a qualified name at its first colon. Every
byte outside ASCII may stand anywhere in a name, so that names are read without decoding them.
-/

namespace XmlStore

def isNameStart (b : UInt8) : Bool := isLetter b || b == 0x5F || b == 0x3A || 0x80 ≤ b

def isNameByte (b : UInt8) : Bool := isNameStart b || isDigit b || b == 0x2D || b == 0x2E

def spanName (bs : Bytes) : Bytes × Bytes := (bs.takeWhile isNameByte, bs.dropWhile isNameByte)

def readName? : Bytes → Option (Bytes × Bytes)
  | [] => none
  | b :: rest => if isNameStart b then some (spanName (b :: rest)) else none

/-- A qualified name, divided at the first colon. Both parts may be empty. -/
structure QName where
  qualifier : Option Bytes
  localPart : Bytes
  deriving DecidableEq, Repr

def QName.ofBytes (name : Bytes) : QName :=
  match cutAt? (· == 0x3A) name with
  | some (qualifier, localPart) => ⟨some qualifier, localPart⟩
  | none => ⟨none, name⟩

def QName.toBytes : QName → Bytes
  | ⟨some qualifier, localPart⟩ => qualifier ++ 0x3A :: localPart
  | ⟨none, localPart⟩ => localPart

/-- The qualifier that an attribute of this name binds, if it declares a namespace: `xmlns` binds
the empty one and `xmlns:p` binds `p`. -/
def declaredQualifier? (name : Bytes) : Option Bytes :=
  if name = ascii "xmlns" then some []
  else if (ascii "xmlns:").isPrefixOf name then some (name.drop 6)
  else none

theorem QName.toBytes_ofBytes (name : Bytes) : (QName.ofBytes name).toBytes = name := by
  unfold QName.ofBytes
  split
  next qualifier localPart h =>
    obtain ⟨b, hb, hs, _⟩ := cutAt?_append h
    simp only [beq_iff_eq] at hb
    simp [QName.toBytes, hs, hb]
  next => rfl

end XmlStore
