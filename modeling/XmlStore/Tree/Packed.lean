import XmlStore.Markup.Attribute

/-!
# Byte strings in one buffer

Strings are laid end to end in one buffer and are found again by their spans. The attributes of an
element are kept this way, so that the next element can use the buffer again.
-/

namespace XmlStore

structure Span where
  start : Nat
  length : Nat
  deriving DecidableEq, Repr

def Span.stop (span : Span) : Nat := span.start + span.length

def Span.read (span : Span) (buffer : Bytes) : Bytes := (buffer.drop span.start).take span.length

def Span.appended (buffer text : Bytes) : Span := ⟨buffer.length, text.length⟩

theorem Span.read_append {span : Span} {buffer : Bytes} (h : span.stop ≤ buffer.length)
    (more : Bytes) : span.read (buffer ++ more) = span.read buffer := by
  unfold Span.stop at h
  unfold Span.read
  rw [List.drop_append_of_le_length (by omega), List.take_append_of_le_length]
  rw [List.length_drop]
  omega

theorem Span.read_appended (buffer text : Bytes) :
    (Span.appended buffer text).read (buffer ++ text) = text := by
  simp [Span.appended, Span.read]

structure PackedAttributes where
  buffer : Bytes := []
  /-- The span of each name and of its value. -/
  entries : List (Span × Span) := []
  deriving DecidableEq, Repr

namespace PackedAttributes

def empty : PackedAttributes := {}

def add (packed : PackedAttributes) (att : Attribute) : PackedAttributes :=
  let named := packed.buffer ++ att.name
  { buffer := named ++ att.value
    entries :=
      packed.entries ++ [(Span.appended packed.buffer att.name, Span.appended named att.value)] }

/-- Takes all attributes away; the buffer is filled from its start again. -/
def reset (packed : PackedAttributes) : PackedAttributes :=
  { packed with buffer := [], entries := [] }

def size (packed : PackedAttributes) : Nat := packed.entries.length

def isEmpty (packed : PackedAttributes) : Bool := packed.entries.isEmpty

def entry (packed : PackedAttributes) (spans : Span × Span) : Attribute :=
  ⟨spans.1.read packed.buffer, spans.2.read packed.buffer⟩

def get? (packed : PackedAttributes) (i : Nat) : Option Attribute :=
  packed.entries[i]?.map packed.entry

def toList (packed : PackedAttributes) : List Attribute := packed.entries.map packed.entry

def ofList (attributes : List Attribute) : PackedAttributes := attributes.foldl add empty

def refill (packed : PackedAttributes) (attributes : List Attribute) : PackedAttributes :=
  attributes.foldl add packed.reset

end PackedAttributes

end XmlStore
