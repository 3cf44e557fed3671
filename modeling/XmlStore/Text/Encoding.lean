import XmlStore.Text.Utf8
import XmlStore.Text.Utf16

/-!
# Encodings of a document

A document is UTF-8 or UTF-16. The encoding is told from the first two bytes: a byte order mark,
or a `<` that is one UTF-16 code unit. UTF-16 is converted before anything else is read, and
UTF-8 is taken as it is, less one byte order mark.
-/

namespace XmlStore

inductive EncodingFault where
  | oddLength
  | unpairedSurrogate (unit : UInt16)
  | illFormedUtf8
  | utf8AfterSurrogate
  | utf16AfterPartialUtf8
  | endsInsideUtf8
  | endsInSurrogate (unit : UInt16)
  /-- A chunk of code units that has to decode on its own does not. -/
  | unpairedInChunk
  | unsupported (name : String)
  deriving DecidableEq, Repr

def EncodingFault.message : EncodingFault → String
  | .oddLength => "UTF-16 input has an odd number of bytes"
  | .unpairedSurrogate unit => "unpaired UTF-16 surrogate " ++ Utf16.hex unit
  | .illFormedUtf8 => "invalid UTF-8 sequence"
  | .utf8AfterSurrogate => "UTF-8 data after unpaired UTF-16 surrogate"
  | .utf16AfterPartialUtf8 => "UTF-16 data after incomplete UTF-8 sequence"
  | .endsInsideUtf8 => "text ends with an incomplete UTF-8 sequence"
  | .endsInSurrogate unit => "text ends with unpaired UTF-16 surrogate " ++ Utf16.hex unit
  | .unpairedInChunk => "unpaired surrogate in text"
  | .unsupported name => "unsupported encoding '" ++ name ++ "'"

inductive ByteOrder where
  | little
  | big
  deriving DecidableEq, Repr

def ByteOrder.unit : ByteOrder → UInt8 → UInt8 → UInt16
  | .little, first, second => UInt16.ofNat (second.toNat * 256 + first.toNat)
  | .big, first, second => UInt16.ofNat (first.toNat * 256 + second.toNat)

def ByteOrder.bytes (order : ByteOrder) (unit : UInt16) : Bytes :=
  let high := UInt8.ofNat (unit.toNat / 256)
  let low := UInt8.ofNat (unit.toNat % 256)
  match order with
  | .little => [low, high]
  | .big => [high, low]

def ByteOrder.mark : ByteOrder → Bytes
  | .little => [0xFF, 0xFE]
  | .big => [0xFE, 0xFF]

def ByteOrder.units? (order : ByteOrder) : Bytes → Option Utf16.Units
  | [] => some []
  | [_] => none
  | first :: second :: rest => (order.units? rest).map (order.unit first second :: ·)

inductive Encoding where
  | utf8
  | utf16 (order : ByteOrder)
  deriving DecidableEq, Repr

namespace Encoding

def name : Encoding → String
  | .utf8 => "UTF-8"
  | .utf16 .little => "UTF-16LE"
  | .utf16 .big => "UTF-16BE"

def detect : Bytes → Encoding
  | 0xFF :: 0xFE :: _ => .utf16 .little
  | 0x3C :: 0x00 :: _ => .utf16 .little
  | 0xFE :: 0xFF :: _ => .utf16 .big
  | 0x00 :: 0x3C :: _ => .utf16 .big
  | _ => .utf8

def utf8Mark : Bytes := [0xEF, 0xBB, 0xBF]

def dropMark (mark bs : Bytes) : Bytes :=
  if mark.isPrefixOf bs then bs.drop mark.length else bs

/-- The document as UTF-8. Bytes that are taken for UTF-8 are not checked here, but where they
become character data. -/
def toUtf8 (bs : Bytes) : Except EncodingFault Bytes :=
  match detect bs with
  | .utf8 => .ok (dropMark utf8Mark bs)
  | .utf16 order =>
    match order.units? (dropMark order.mark bs) with
    | none => .error .oddLength
    | some units =>
      match Utf16.decode units with
      | (cs, none) => .ok (Utf8.encode cs)
      | (_, some unit) => .error (.unpairedSurrogate unit)

end Encoding

end XmlStore
