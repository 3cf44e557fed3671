import XmlStore.Error
import XmlStore.Octets

/-!
# Bytes by position

Bytes that are looked up by their position, and slices that are taken between two positions. Either
stops what runs if it is out of range. A text that stands at a position tells what is found there.
-/

namespace XmlStore

/-- Why a reader with a position stops. -/
inductive Halt where
  /-- A byte was looked up, or a slice taken, that is not there. -/
  | outOfRange
  /-- A loop did not end within the rounds it was given. -/
  | unfinished
  | malformed (position : Nat) (fault : Fault)
  deriving DecidableEq, Repr

abbrev Checked := Except Halt

@[simp] theorem Checked.ok_bind {α β : Type} (a : α) (next : α → Checked β) :
    ((.ok a : Checked α) >>= next) = next a := rfl

def byteAt (bytes : Bytes) (pos : Nat) : Checked UInt8 :=
  match bytes[pos]? with
  | some b => .ok b
  | none => .error .outOfRange

def slice (bytes : Bytes) (first last : Nat) : Checked Bytes :=
  if first ≤ last ∧ last ≤ bytes.length then .ok ((bytes.take last).drop first)
  else .error .outOfRange

/-- The first position from `pos` on whose byte does not satisfy a test, or the end. -/
def skipWhile (p : UInt8 → Bool) (bytes : Bytes) (pos : Nat) : Nat :=
  if h : pos < bytes.length then
    if p bytes[pos] then skipWhile p bytes (pos + 1) else pos
  else pos
termination_by bytes.length - pos

-- ---------------------------------------------------------------------------
-- Texts at positions
-- ---------------------------------------------------------------------------

/-- A text stands at a position and reaches to the end of the bytes. -/
def BeginsAt (bytes : Bytes) (pos : Nat) (text : Bytes) : Prop :=
  ∃ front : Bytes, front.length = pos ∧ bytes = front ++ text

namespace BeginsAt

variable {bytes text rest : Bytes} {pos taken : Nat} {b : UInt8}

theorem start (bytes : Bytes) : BeginsAt bytes 0 bytes := ⟨[], rfl, rfl⟩

theorem trans (h : BeginsAt bytes pos text) (h' : BeginsAt text taken rest) :
    BeginsAt bytes (pos + taken) rest := by
  obtain ⟨front, rfl, rfl⟩ := h
  obtain ⟨more, rfl, rfl⟩ := h'
  exact ⟨front ++ more, List.length_append, (List.append_assoc _ _ _).symm⟩

theorem advance {part : Bytes} (h : BeginsAt bytes pos (part ++ rest)) :
    BeginsAt bytes (pos + part.length) rest := h.trans ⟨part, rfl, rfl⟩

theorem next (h : BeginsAt bytes pos (b :: rest)) : BeginsAt bytes (pos + 1) rest :=
  h.trans ⟨[b], rfl, rfl⟩

theorem length_eq (h : BeginsAt bytes pos text) : bytes.length = pos + text.length := by
  obtain ⟨front, rfl, rfl⟩ := h
  exact List.length_append

theorem position_eq (h : BeginsAt bytes pos text) (offset : Nat) :
    offset + bytes.length - text.length = offset + pos := by
  have hlength := h.length_eq
  omega

theorem getElem?_eq (h : BeginsAt bytes pos text) : bytes[pos]? = text.head? := by
  obtain ⟨front, rfl, rfl⟩ := h
  rw [List.getElem?_append_right (Nat.le_refl _), Nat.sub_self, List.head?_eq_getElem?]

theorem slice_eq {part : Bytes} (h : BeginsAt bytes pos (part ++ rest)) :
    slice bytes pos (pos + part.length) = .ok part := by
  have hlength := h.length_eq
  rw [List.length_append] at hlength
  obtain ⟨front, rfl, rfl⟩ := h
  rw [slice, if_pos ⟨by omega, by omega⟩, ← List.append_assoc, ← List.length_append,
    List.take_left, List.drop_left]

theorem slice_to_end (h : BeginsAt bytes pos text) : slice bytes pos bytes.length = .ok text := by
  have hall : BeginsAt bytes pos (text ++ []) := by rwa [List.append_nil]
  rw [h.length_eq, hall.slice_eq]

theorem skipWhile_eq (h : BeginsAt bytes pos text) (p : UInt8 → Bool) :
    skipWhile p bytes pos = pos + (text.takeWhile p).length := by
  induction text generalizing pos with
  | nil =>
    have hlength := h.length_eq
    rw [List.length_nil] at hlength
    rw [skipWhile, dif_neg (by omega), List.takeWhile_nil, List.length_nil, Nat.add_zero]
  | cons b rest ih =>
    obtain ⟨hlt, hb⟩ := List.getElem?_eq_some_iff.mp h.getElem?_eq
    rw [skipWhile, dif_pos hlt, hb, List.takeWhile_cons]
    split
    · rw [ih h.next, List.length_cons]
      omega
    · rfl

theorem skipWhile (h : BeginsAt bytes pos text) (p : UInt8 → Bool) :
    BeginsAt bytes (XmlStore.skipWhile p bytes pos) (text.dropWhile p) := by
  rw [h.skipWhile_eq]
  exact advance (by rwa [List.takeWhile_append_dropWhile])

end BeginsAt

end XmlStore
