import XmlStore.Text.Encoding

/-!
# Runs of character data

Character data arrives in chunks that may end anywhere, also inside a code point. A run holds the
whole code points that have arrived, as UTF-8, and holds back the one whose code units are still
missing.
-/

namespace XmlStore

inductive Chunk where
  | utf8 (bytes : Bytes)
  | utf16 (units : Utf16.Units)
  deriving DecidableEq, Repr

def Chunk.isEmpty : Chunk → Bool
  | .utf8 bytes => bytes.isEmpty
  | .utf16 units => units.isEmpty

inductive HeldBack where
  | nothing
  /-- A lead byte and the bytes that have followed it. -/
  | bytes (lead : UInt8) (following : Bytes)
  | surrogate (high : UInt16)
  deriving DecidableEq, Repr

structure TextRun where
  /-- The bytes of the whole code points, the latest first. -/
  reversed : Bytes := []
  held : HeldBack := .nothing
  deriving DecidableEq, Repr

namespace TextRun

def empty : TextRun := {}

def text (run : TextRun) : Bytes := run.reversed.reverse

def isEmpty (run : TextRun) : Bool := run.reversed.isEmpty && run.held == .nothing

def extend (run : TextRun) (more : Bytes) (held : HeldBack) : TextRun :=
  { reversed := more.reverse ++ run.reversed, held }

@[simp] theorem text_extend (run : TextRun) (more : Bytes) (held : HeldBack) :
    (run.extend more held).text = run.text ++ more := by
  simp [extend, text]

/-- Appends to a run that holds nothing back: well-formed bytes are kept, also those before a
fault, and a sequence that the chunk cuts off is held back. -/
def appendUtf8 (chunk : Bytes) (run : TextRun) : EStateM.Result EncodingFault TextRun Unit :=
  let parts := Utf8.split chunk
  match parts.2 with
  | [] => .ok () (run.extend parts.1 .nothing)
  | lead :: following =>
    match Utf8.head lead following with
    | .truncated => .ok () (run.extend parts.1 (.bytes lead following))
    | _ => .error .illFormedUtf8 (run.extend parts.1 .nothing)

/-- A held-back sequence is judged when it has the length that its lead byte announces; if it is
ill formed then, the run stays as it was. -/
def pushUtf8 (chunk : Bytes) (run : TextRun) : EStateM.Result EncodingFault TextRun Unit :=
  match run.held with
  | .surrogate _ => .error .utf8AfterSurrogate run
  | .nothing => run.appendUtf8 chunk
  | .bytes lead following =>
    let missing := Utf8.announcedLength lead - (following.length + 1)
    if chunk.length < missing then
      .ok () { run with held := .bytes lead (following ++ chunk) }
    else
      let sequence := lead :: following ++ chunk.take missing
      if Utf8.isValid sequence then
        (run.extend sequence .nothing).appendUtf8 (chunk.drop missing)
      else .error .illFormedUtf8 run

/-- Splits off a high surrogate at the end, which may be half of a pair. -/
def splitSurrogate (units : Utf16.Units) : Utf16.Units × HeldBack :=
  match units.getLast? with
  | some last =>
    if Utf16.isHighSurrogate last then (units.dropLast, .surrogate last) else (units, .nothing)
  | none => (units, .nothing)

/-- Appends the code units after `pending`. Characters before a fault are kept. -/
def appendUtf16 (pending units : Utf16.Units) (run : TextRun) :
    EStateM.Result EncodingFault TextRun Unit :=
  let parts := splitSurrogate units
  let decoded := Utf16.decode (pending ++ parts.1)
  let text := Utf8.encode decoded.1
  match decoded.2 with
  | some unit => .error (.unpairedSurrogate unit) (run.extend text .nothing)
  | none => .ok () (run.extend text parts.2)

def pushUtf16 (units : Utf16.Units) (run : TextRun) : EStateM.Result EncodingFault TextRun Unit :=
  if units.isEmpty then .ok () run
  else
    match run.held with
    | .bytes _ _ => .error .utf16AfterPartialUtf8 run
    | .surrogate high => run.appendUtf16 [high] units
    | .nothing => run.appendUtf16 [] units

def push (chunk : Chunk) : EStateM EncodingFault TextRun Unit := fun run =>
  match chunk with
  | .utf8 bytes => run.pushUtf8 bytes
  | .utf16 units => run.pushUtf16 units

def ensureComplete (run : TextRun) : Except EncodingFault Unit :=
  match run.held with
  | .nothing => .ok ()
  | .bytes _ _ => .error .endsInsideUtf8
  | .surrogate high => .error (.endsInSurrogate high)

end TextRun

end XmlStore
