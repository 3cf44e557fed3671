import XmlStore.Event.Assembly
import XmlStore.Markup.Parser
import XmlStore.Tree.Builder

/-!
# Ingesting documents

A document becomes a database: its bytes are converted to UTF-8 and read piece by piece, the
events are assembled to node calls, and the calls build the database. A document in memory is
converted as a whole. A file is converted as a whole if its first bytes say that it is UTF-16, and
otherwise read in pieces, of which only the first can begin with a byte order mark.
-/

namespace XmlStore

abbrev Ingestion := Session (Assembly Builder)

namespace Ingestion

def builder (name source : String) (inputSize : Nat) (reading : ReadOptions)
    (indexing : IndexOptions) : Builder :=
  { Builder.ofOptions indexing with
    chop := reading.chop
    metadata := { Metadata.named name with
      source, inputSize, expandEntities := reading.expandEntities } }

def start (name source : String) (inputSize : Nat) (reading : ReadOptions)
    (indexing : IndexOptions) : Ingestion :=
  { parser := .ofOptions reading
    receiver :=
      { receiver := builder name source inputSize reading indexing
        name := Utf8.encode name.toList } }

def handle : Handler (Assembly Builder) := Assembly.handle Builder.take

def feed (pieces : List Bytes) : EStateM Error Ingestion Unit :=
  pieces.forM (Session.feed handle)

/-- The database, if the document is complete. Its encoding is the declared one if there is a
declaration, else the detected one. -/
def finish (encoding : Encoding) (ingestion : Ingestion) : Except Error Database :=
  match Session.finish handle ingestion with
  | .error fault _ => .error fault
  | .ok () ingestion =>
    let built := ingestion.receiver.receiver
    let declared := ingestion.parser.context.encoding.getD encoding.name
    let built := { built with metadata := { built.metadata with encoding := declared } }
    built.finish.mapError .build

def run (encoding : Encoding) (pieces : List Bytes) (ingestion : Ingestion) :
    Except Error Database :=
  match feed pieces ingestion with
  | .error fault _ => .error fault
  | .ok () ingestion => ingestion.finish encoding

end Ingestion

def ingest (name : String) (input : Bytes) (reading : ReadOptions) (indexing : IndexOptions) :
    Except Error Database := do
  let utf8 ← (Encoding.toUtf8 input).mapError .encoding
  (Ingestion.start name "" input.length reading indexing).run (Encoding.detect input)
    (pieces reading.chunkSize utf8)

/-- The name of a file without the directories before it. A path that ends in a step upwards names
no file. -/
def fileName? (path : List Char) : Option (List Char) :=
  let steps := (path.splitBy fun a b => a != '/' && b != '/').filter fun step =>
    step != ['/'] && step != ['.']
  match steps.getLast? with
  | some ['.', '.'] => none
  | last => last

/-- A file name without its last extension. A point at the start does not begin an extension. -/
def fileStem (path : String) : String :=
  match fileName? path.toList with
  | none => ""
  | some name =>
    let dotted := name.reverse.dropWhile (· != '.')
    let stem := dotted.tail.reverse
    String.ofList (if stem.isEmpty then name else stem)

def filePieces (room chunkSize : Nat) (content : Bytes) : List Bytes :=
  Encoding.dropMark Encoding.utf8Mark (content.take room) ::
    pieces chunkSize (content.drop room)

/-- The most bytes that a buffer can have, however much memory there is. -/
def maxBuffer : Nat := 9223372036854775807

/-- The room in the first buffer of a file, which is long enough for any byte order mark. -/
def firstRoom (memory chunkSize : Nat) : Except Error Nat :=
  let room := max chunkSize 4
  if room ≤ min memory maxBuffer then .ok room else .error .oversizedBuffer

def ingestFile (path : String) (content : Option Bytes) (reading : ReadOptions)
    (indexing : IndexOptions) : Except Error Database :=
  match content with
  | none => .error .missingFile
  | some content => do
    let room ← firstRoom maxBuffer reading.chunkSize
    let encoding := Encoding.detect (content.take room)
    let ingestion := Ingestion.start (fileStem path) path content.length reading indexing
    match encoding with
    | .utf8 => ingestion.run encoding (filePieces room reading.chunkSize content)
    | .utf16 _ =>
      let utf8 ← (Encoding.toUtf8 content).mapError .encoding
      ingestion.run encoding (pieces reading.chunkSize utf8)

end XmlStore
