/-!
# UTF-16

Code units, the pairing of surrogates, and the decoding that stops at the first unpaired one.
-/

namespace XmlStore.Utf16

abbrev Units := List UInt16

def isHighSurrogate (u : UInt16) : Bool := 0xD800 ≤ u && u ≤ 0xDBFF

def isLowSurrogate (u : UInt16) : Bool := 0xDC00 ≤ u && u ≤ 0xDFFF

def pair (high low : UInt16) : Char :=
  Char.ofNat (0x10000 + (high.toNat - 0xD800) * 0x400 + (low.toNat - 0xDC00))

/-- The characters before the first unpaired surrogate, and that surrogate if there is one. A
high surrogate is paired by the low surrogate right after it and by nothing else. -/
def decode : Units → List Char × Option UInt16
  | [] => ([], none)
  | [u] =>
    if isHighSurrogate u || isLowSurrogate u then ([], some u) else ([Char.ofNat u.toNat], none)
  | u :: v :: rest =>
    if isHighSurrogate u then
      if isLowSurrogate v then
        let remaining := decode rest
        (pair u v :: remaining.1, remaining.2)
      else ([], some u)
    else if isLowSurrogate u then ([], some u)
    else
      let remaining := decode (v :: rest)
      (Char.ofNat u.toNat :: remaining.1, remaining.2)

def encodeChar (c : Char) : Units :=
  let value := c.toNat
  if value < 0x10000 then [UInt16.ofNat value]
  else
    let offset := value - 0x10000
    [UInt16.ofNat (0xD800 + offset / 0x400), UInt16.ofNat (0xDC00 + offset % 0x400)]

def encode (cs : List Char) : Units := cs.flatMap encodeChar

def hex (u : UInt16) : String :=
  let digit (n : Nat) : Char := if n < 10 then Char.ofNat (48 + n) else Char.ofNat (55 + n)
  let n := u.toNat
  "0x" ++ String.ofList
    [digit (n / 0x1000), digit (n / 0x100 % 16), digit (n / 0x10 % 16), digit (n % 16)]

end XmlStore.Utf16
