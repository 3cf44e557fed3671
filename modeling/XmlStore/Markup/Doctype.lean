import XmlStore.Markup.Delimiter
import XmlStore.Markup.Name
import XmlStore.Error

/-!
# Document type declarations

A declaration names the root element, may name external identifiers, and may hold an internal
subset. Of the subset only general entities with a literal text, comments and processing
instructions are kept; every other declaration is skipped to its end.

As for attributes, a reader knows the position where its text stops.
-/

namespace XmlStore

inductive SubsetItem where
  | entity (name text : Bytes)
  | comment (text : Bytes)
  | instruction (target data : Bytes)
  deriving DecidableEq, Repr

structure Doctype where
  name : Bytes
  publicId : Option Bytes := none
  systemId : Option Bytes := none
  items : List SubsetItem := []
  deriving DecidableEq, Repr

def readLiteral (stop : Nat) (text : Bytes) : Except Error (Bytes × Bytes) :=
  match trimStart text with
  | [] => .error (.malformed stop .missingLiteral)
  | quote :: quoted =>
    if isQuote quote then
      match cutAt? (· == quote) quoted with
      | none => .error (.malformed (stop - quoted.length) .unterminatedLiteral)
      | some found => .ok found
    else .error (.malformed (stop - (quote :: quoted).length) .missingLiteral)

/-- Reads an entity declaration after its keyword. Parameter entities and external entities
contribute nothing. -/
def readEntity (stop : Nat) (body : Bytes) : Except Error (Option SubsetItem) :=
  let body := trimStart body
  if body.head? = some 0x25 then .ok none
  else
    match readName? body with
    | none => .error (.malformed (stop - body.length) .entityName)
    | some (name, rest) =>
      let rest := trimStart rest
      if rest.head?.any isQuote then
        (readLiteral stop rest).map fun literal => some (.entity name literal.1)
      else .ok none

def failAtStart {α : Type} (stop : Nat) (text : Bytes) (fault : Fault) : Except Error α :=
  .error (.malformed (stop - text.length) fault)

/-- Reads the item at the start of a text that is not empty and does not begin with white space,
and gives what follows it. Positions inside an entity declaration are counted from its first byte
as if the keyword took no space. -/
def readItem (stop : Nat) (text : Bytes) : Except Error (Option SubsetItem × Bytes) :=
  if (ascii "<!--").isPrefixOf text then
    match cut? (ascii "-->") (text.drop 4) with
    | none => failAtStart stop text .unterminatedComment
    | some (comment, rest) => .ok (some (.comment comment), rest)
  else if (ascii "<?>").isPrefixOf text then .error .sharedDelimiter
  else if (ascii "<?").isPrefixOf text then
    match cut? (ascii "?>") (text.drop 2) with
    | none => failAtStart stop text .unterminatedInstruction
    | some (body, rest) =>
      match readName? body with
      | none => failAtStart stop text .instructionTarget
      | some (target, data) => .ok (some (.instruction target (trimStart data)), rest)
  else if (ascii "<!ENTITY").isPrefixOf text then
    match cutUnquoted? none (text.drop 8) with
    | none => failAtStart stop text .unterminatedEntityDeclaration
    | some (body, rest) =>
      match readEntity body.length body with
      | .error fault => .error (fault.shift (stop - text.length))
      | .ok item => .ok (item, rest)
  else if (ascii "<!").isPrefixOf text then
    match cutUnquoted? none (text.drop 2) with
    | none => failAtStart stop text .unterminatedDeclaration
    | some (_, rest) => .ok (none, rest)
  else if text.head? = some 0x25 then
    match cutAt? (· == 0x3B) text with
    | none => .ok (none, [])
    | some (_, rest) => .ok (none, rest)
  else failAtStart stop text .unexpectedSubsetContent

/-- Reads the items of an internal subset; each takes at least one byte, so `fuel` need not exceed
the length of the text. -/
def readItems (stop : Nat) : (fuel : Nat) → Bytes → Except Error (List SubsetItem)
  | 0, _ => .ok []
  | fuel + 1, text =>
    let text := trimStart text
    if text.isEmpty then .ok []
    else do
      let (item, rest) ← readItem stop text
      let items ← readItems stop fuel rest
      return item.toList ++ items

def readSubset (stop : Nat) (text : Bytes) : Except Error (List SubsetItem) :=
  readItems stop text.length text

def cutLastBracket? (text : Bytes) : Option (Bytes × Bytes) :=
  (cutAt? (· == 0x5D) text.reverse).map fun found => (found.2.reverse, found.1.reverse)

def readExternalId (stop : Nat) (text : Bytes) :
    Except Error (Option Bytes × Option Bytes × Bytes) :=
  if (ascii "PUBLIC").isPrefixOf text then do
    let (publicId, rest) ← readLiteral stop (text.drop 6)
    let (systemId, rest) ← readLiteral stop rest
    return (some publicId, some systemId, rest)
  else if (ascii "SYSTEM").isPrefixOf text then do
    let (systemId, rest) ← readLiteral stop (text.drop 6)
    return (none, some systemId, rest)
  else .ok (none, none, text)

/-- Reads the content of a declaration, which stands between its keyword and its closing `>`. The
internal subset reaches to the last closing bracket; what follows it is not looked at. -/
def readDoctype (stop : Nat) (content : Bytes) : Except Error Doctype :=
  let content := trimStart content
  match readName? content with
  | none => .error (.malformed (stop - content.length) .doctypeName)
  | some (name, rest) => do
    let (publicId, systemId, rest) ← readExternalId stop (trimStart rest)
    match trimStart rest with
    | 0x5B :: inner =>
      match cutLastBracket? inner with
      | none => .error (.malformed (stop - (inner.length + 1)) .unterminatedSubset)
      | some (subset, after) =>
        let items ← readSubset (stop - (after.length + 1)) subset
        return { name, publicId, systemId, items }
    | _ => return { name, publicId, systemId }

end XmlStore
