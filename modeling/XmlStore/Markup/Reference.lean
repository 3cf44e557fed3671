import XmlStore.Error

/-!
# References

A text is divided into literal bytes and references, and a reference is replaced by a character,
by one of five fixed texts, or by a declared text whose own references are replaced in turn. Every
replacement counts against a limit that a whole document shares, and declared texts nest at most
64 deep.
-/

namespace XmlStore

def isXmlChar (value : Nat) : Bool :=
  value == 0x9 || value == 0xA || value == 0xD || (0x20 ≤ value && value ≤ 0xD7FF) ||
    (0xE000 ≤ value && value ≤ 0xFFFD) || (0x10000 ≤ value && value ≤ 0x10FFFF)

def digitValue? (base : Nat) (b : UInt8) : Option Nat :=
  let value :=
    if isDigit b then b.toNat - 0x30
    else if isLetter b then (asciiUpper b).toNat - 0x41 + 10
    else base
  if value < base then some value else none

/-- The number that a non-empty run of digits stands for. A plus sign may precede it. -/
def number? (base : Nat) (digits : Bytes) : Option Nat :=
  let unsigned := if digits.head? = some 0x2B then digits.tail else digits
  if unsigned.isEmpty then none
  else unsigned.foldlM (fun value b => (digitValue? base b).map (value * base + ·)) 0

def characterReference? (digits : Bytes) : Option Char :=
  let value :=
    match digits with
    | 0x78 :: rest => number? 16 rest
    | 0x58 :: rest => number? 16 rest
    | _ => number? 10 digits
  (value.filter isXmlChar).map Char.ofNat

def predefined? (name : Bytes) : Option Bytes :=
  if name = ascii "lt" then some (ascii "<")
  else if name = ascii "gt" then some (ascii ">")
  else if name = ascii "amp" then some (ascii "&")
  else if name = ascii "quot" then some (ascii "\"")
  else if name = ascii "apos" then some (ascii "'")
  else none

inductive Piece where
  | literal (bytes : Bytes)
  | reference (name : Bytes)
  deriving DecidableEq, Repr

/-- Divides a text at its references. A reference reaches from an ampersand to the next semicolon;
an ampersand that no semicolon follows stands for itself. -/
def Piece.ofText (text : Bytes) : List Piece :=
  match _h : cutAt? (· == 0x26) text with
  | none => [.literal text]
  | some (before, after) =>
    match _h' : cutAt? (· == 0x3B) after with
    | none => [.literal text]
    | some (name, rest) => .literal before :: .reference name :: ofText rest
termination_by text.length
decreasing_by
  obtain ⟨_, _, hs, _⟩ := cutAt?_append _h
  obtain ⟨_, _, hs', _⟩ := cutAt?_append _h'
  simp only [hs, hs', List.length_append, List.length_cons]
  omega

/-- What replacing references has produced: the output, also that before a fault, and the number
of replacements counted so far in the document. -/
structure Expansion where
  output : Bytes
  expanded : Nat
  fault : Option ReferenceFault := none
  deriving DecidableEq, Repr

def Expansion.andThen (first : Expansion) (next : Nat → Expansion) : Expansion :=
  match first.fault with
  | some _ => first
  | none =>
    let second := next first.expanded
    { second with output := first.output ++ second.output }

def Expansion.ofPieces (rule : Bytes → Nat → Expansion) : List Piece → Nat → Expansion
  | [], expanded => { output := [], expanded }
  | .literal bytes :: rest, expanded =>
    Expansion.andThen { output := bytes, expanded } (ofPieces rule rest)
  | .reference name :: rest, expanded => (rule name expanded).andThen (ofPieces rule rest)

structure Entities where
  limit : Nat
  /-- References to entities that are not predefined stay as they are written. -/
  passthrough : Bool := false
  declared : List (Bytes × Bytes) := []
  expanded : Nat := 0
  deriving DecidableEq, Repr

namespace Entities

/-- How deep declared texts may nest; deeper nesting counts as recursion. -/
def maxNesting : Nat := 64

def lookup? (entities : Entities) (name : Bytes) : Option Bytes := entities.declared.lookup name

def declare (entities : Entities) (name value : Bytes) : Entities :=
  if (entities.lookup? name).isSome then entities
  else { entities with declared := entities.declared ++ [(name, value)] }

def isKept (entities : Entities) (name : Bytes) : Bool :=
  entities.passthrough && name.head? != some 0x23 && (predefined? name).isNone

/-- Replaces one reference, when `expanded` have been replaced before and declared texts may nest
`levels` deep. -/
def expandNested (entities : Entities) : (levels : Nat) → (name : Bytes) → (expanded : Nat) →
    Expansion
  | levels, name, expanded =>
    if entities.isKept name then { output := 0x26 :: name ++ [0x3B], expanded }
    else
      let expanded := expanded + 1
      let failed (fault : ReferenceFault) : Expansion :=
        { output := [], expanded, fault := some fault }
      if expanded > entities.limit then failed (.limitExceeded entities.limit)
      else if name.head? = some 0x23 then
        match characterReference? name.tail with
        | some c => { output := Utf8.encode [c], expanded }
        | none => failed (.invalidCharacter name)
      else
        match predefined? name with
        | some text => { output := text, expanded }
        | none =>
          match levels with
          | 0 => failed (.recursive name)
          | levels + 1 =>
            match entities.lookup? name with
            | none => failed (.undeclared name)
            | some text =>
              Expansion.ofPieces (fun name => entities.expandNested levels name)
                (Piece.ofText text) expanded

def expandReference (entities : Entities) (name : Bytes) : Expansion :=
  entities.expandNested maxNesting name entities.expanded

def expandText (entities : Entities) (text : Bytes) : Expansion :=
  Expansion.ofPieces (entities.expandNested maxNesting) (Piece.ofText text) entities.expanded

/-- The entities after an expansion: what was counted stays counted, also if it failed. -/
def after (entities : Entities) (expansion : Expansion) : Entities :=
  { entities with expanded := expansion.expanded }

end Entities

end XmlStore
