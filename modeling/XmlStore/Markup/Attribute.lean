import XmlStore.Markup.Name
import XmlStore.Markup.Reference

/-!
# Attributes of a start tag

Attributes are read in two passes. The first divides the text of a tag into names and raw values,
up to the first fault; the second normalises white space in each value and replaces its
references, from left to right, on the budget of the document. White space between two attributes
may be left out.

Positions are those of the document: the reader knows where its text stops, and a suffix of the
text begins as many bytes before.
-/

namespace XmlStore

structure Attribute where
  name : Bytes
  value : Bytes
  deriving DecidableEq, Repr

def Attribute.declares? (att : Attribute) : Option Bytes := declaredQualifier? att.name

/-- Literal white space in a value counts as spaces, a line end of two bytes as one space. -/
def spaced : Bytes → Bytes
  | [] => []
  | [b] => [if isSpace b then 0x20 else b]
  | b :: c :: rest =>
    if b == 0x0D && c == 0x0A then 0x20 :: spaced rest
    else (if isSpace b then 0x20 else b) :: spaced (c :: rest)

/-- Reads one attribute with its raw value at the start of a text that does not begin with white
space. The text stops at the position `stop` of the document. -/
def readAttribute (stop : Nat) (text : Bytes) : Except Error (Attribute × Bytes) :=
  match readName? text with
  | none => .error (.malformed (stop - text.length) .attributeName)
  | some (name, afterName) =>
    match trimStart afterName with
    | 0x3D :: afterEquals =>
      match trimStart afterEquals with
      | [] => .error (.malformed stop .unquotedValue)
      | quote :: quoted =>
        if isQuote quote then
          match cutAt? (· == quote) quoted with
          | none => .error (.malformed (stop - quoted.length) .unterminatedValue)
          | some (value, rest) =>
            if value.contains 0x3C then
              .error (.malformed (stop - quoted.length) .lessThanInValue)
            else .ok (⟨name, value⟩, rest)
        else .error (.malformed (stop - (quote :: quoted).length) .unquotedValue)
    | other => .error (.malformed (stop - other.length) (.missingEquals name))

theorem length_trimStart_le (text : Bytes) : (trimStart text).length ≤ text.length :=
  (List.dropWhile_suffix isSpace).length_le

theorem readAttribute_length {stop : Nat} {text rest : Bytes} {att : Attribute}
    (h : readAttribute stop text = .ok (att, rest)) : rest.length < text.length := by
  unfold readAttribute at h
  split at h
  next => simp at h
  next name afterName hn =>
    have hname : afterName.length ≤ text.length := by
      unfold readName? at hn
      split at hn
      next => simp at hn
      next b tail =>
        split at hn
        next =>
          simp only [spanName, Option.some.injEq, Prod.mk.injEq] at hn
          rw [← hn.2]
          exact (List.dropWhile_suffix isNameByte).length_le
        next => simp at hn
    split at h
    next afterEquals he =>
      have hequals := length_trimStart_le afterName
      split at h
      next => simp at h
      next quote quoted hq =>
        have hquoted := length_trimStart_le afterEquals
        split at h
        next =>
          split at h
          next => simp at h
          next value tail hc =>
            obtain ⟨_, _, hs, _⟩ := cutAt?_append hc
            split at h
            next => simp at h
            next =>
              simp only [Except.ok.injEq, Prod.mk.injEq] at h
              rw [← h.2]
              simp only [he, hq, hs, List.length_cons, List.length_append] at hequals hquoted
              omega
        next => simp at h
    next => simp at h

def rawAttributes (stop : Nat) (text : Bytes) : List Attribute × Option Error :=
  match _hs : trimStart text with
  | [] => ([], none)
  | b :: rest =>
    match _h : readAttribute stop (b :: rest) with
    | .error fault => ([], some fault)
    | .ok (att, rest) =>
      let others := rawAttributes stop rest
      (att :: others.1, others.2)
termination_by text.length
decreasing_by
  have hlt := readAttribute_length _h
  have hle := length_trimStart_le text
  rw [_hs] at hle
  omega

def decodeAttributes (entities : Entities) :
    List Attribute → Entities × Except Error (List Attribute)
  | [] => (entities, .ok [])
  | att :: rest =>
    let expansion := entities.expandText (spaced att.value)
    let entities := entities.after expansion
    match expansion.fault with
    | some fault => (entities, .error (.reference fault))
    | none =>
      let others := decodeAttributes entities rest
      (others.1, others.2.map ({ att with value := expansion.output } :: ·))

/-- Reads the attributes of a tag. A reference that cannot be replaced is reported before a fault
in the markup after it. -/
def readAttributes (entities : Entities) (stop : Nat) (text : Bytes) :
    Entities × Except Error (List Attribute) :=
  let raw := rawAttributes stop text
  let decoded := decodeAttributes entities raw.1
  match decoded.2, raw.2 with
  | .ok _, some fault => (decoded.1, .error fault)
  | result, _ => (decoded.1, result)

end XmlStore
