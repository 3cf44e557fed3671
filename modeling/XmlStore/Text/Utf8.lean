import XmlStore.Octets

/-!
# UTF-8

A byte string begins with a well-formed sequence, with an ill-formed part, or with the beginning
of a sequence that is cut off. Everything here is read off that one classification: the longest
well-formed beginning, validity, and the decoding in which every ill-formed part becomes a
replacement character.
-/

namespace XmlStore.Utf8

/-- How a byte string begins, given its first byte. The number counts the bytes after the
first. -/
inductive Head where
  | scalar (trailing : Nat)
  /-- An ill-formed part: the first byte and as many after it as could still have begun a
  sequence. -/
  | illFormed (trailing : Nat)
  | truncated
  deriving DecidableEq, Repr

def continuation : UInt8 × UInt8 := (0x80, 0xBF)

/-- The ranges that the bytes after a lead byte have to lie in, or nothing if no sequence begins
with this byte. Overlong forms, surrogates and values above U+10FFFF are ruled out by the second
byte. -/
def trailingRanges (lead : UInt8) : Option (List (UInt8 × UInt8)) :=
  if lead < 0x80 then some []
  else if lead < 0xC2 then none
  else if lead < 0xE0 then some [continuation]
  else if lead = 0xE0 then some [(0xA0, 0xBF), continuation]
  else if lead = 0xED then some [(0x80, 0x9F), continuation]
  else if lead < 0xF0 then some [continuation, continuation]
  else if lead = 0xF0 then some [(0x90, 0xBF), continuation, continuation]
  else if lead < 0xF4 then some [continuation, continuation, continuation]
  else if lead = 0xF4 then some [(0x80, 0x8F), continuation, continuation]
  else none

/-- Holds the bytes against the ranges; `seen` bytes after the lead byte have passed already. -/
def Head.follow (seen : Nat) : List (UInt8 × UInt8) → Bytes → Head
  | [], _ => .scalar seen
  | _ :: _, [] => .truncated
  | range :: ranges, b :: rest =>
    if range.1 ≤ b && b ≤ range.2 then follow (seen + 1) ranges rest else .illFormed seen

def head (lead : UInt8) (rest : Bytes) : Head :=
  match trailingRanges lead with
  | none => .illFormed 0
  | some ranges => Head.follow 0 ranges rest

def scalarValue (lead : UInt8) (trailing : Bytes) : Char :=
  let start :=
    if lead < 0x80 then lead.toNat
    else if lead < 0xE0 then lead.toNat - 0xC0
    else if lead < 0xF0 then lead.toNat - 0xE0
    else lead.toNat - 0xF0
  Char.ofNat (trailing.foldl (fun value b => value * 64 + (b.toNat - 0x80)) start)

def split : Bytes → Bytes × Bytes
  | [] => ([], [])
  | lead :: rest =>
    match head lead rest with
    | .scalar trailing =>
      let remaining := split (rest.drop trailing)
      (lead :: rest.take trailing ++ remaining.1, remaining.2)
    | _ => ([], lead :: rest)
termination_by bs => bs.length
decreasing_by simp only [List.length_drop, List.length_cons]; omega

def isValid (bs : Bytes) : Bool := (split bs).2.isEmpty

def decodeLossy : Bytes → List Char
  | [] => []
  | lead :: rest =>
    match head lead rest with
    | .scalar trailing =>
      scalarValue lead (rest.take trailing) :: decodeLossy (rest.drop trailing)
    | .illFormed trailing => '\uFFFD' :: decodeLossy (rest.drop trailing)
    | .truncated => ['\uFFFD']
termination_by bs => bs.length
decreasing_by all_goals simp only [List.length_drop, List.length_cons]; omega

def encode (cs : List Char) : Bytes := cs.flatMap String.utf8EncodeChar

def lossy (bs : Bytes) : String := String.ofList (decodeLossy bs)

/-- The length of the sequence that a lead byte announces, judged by its leading bits alone. -/
def announcedLength (lead : UInt8) : Nat :=
  if lead < 0xC0 then 1
  else if lead < 0xE0 then 2
  else if lead < 0xF0 then 3
  else if lead < 0xF8 then 4
  else 1

theorem split_append (bs : Bytes) : (split bs).1 ++ (split bs).2 = bs := by
  fun_induction split bs with
  | case1 => rfl
  | case2 lead rest trailing _ remaining ih =>
    show lead :: rest.take trailing ++ remaining.1 ++ remaining.2 = _
    rw [List.append_assoc, ih, List.cons_append, List.take_append_drop]
  | case3 => rfl

end XmlStore.Utf8
