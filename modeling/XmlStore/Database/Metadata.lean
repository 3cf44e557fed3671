import XmlStore.Database.Report

/-!
# Metadata

What is recorded about a database: where it comes from, how large it is, and which indexes it has.
Once the indexes are out of date none of them counts.
-/

namespace XmlStore

structure Metadata where
  name : String := ""
  /-- The path of the input, empty for input from memory. -/
  source : String := ""
  inputSize : Nat := 0
  storeSize : Nat := 0
  /-- Milliseconds since the start of 1970. -/
  time : Int := 0
  encoding : String := ""
  documents : Nat := 0
  nodes : Nat := 0
  height : Nat := 0
  chop : Bool := false
  expandEntities : Bool := false
  paths : Bool := false
  texts : Bool := false
  attributes : Bool := false
  words : Bool := false
  fuzzy : Bool := false
  stale : Bool := false
  deriving DecidableEq, Repr

namespace Metadata

def named (name : String) : Metadata := { name, encoding := "UTF-8" }

def hasPaths (metadata : Metadata) : Bool := metadata.paths && !metadata.stale

def hasTexts (metadata : Metadata) : Bool := metadata.texts && !metadata.stale

def hasAttributes (metadata : Metadata) : Bool := metadata.attributes && !metadata.stale

def hasWords (metadata : Metadata) : Bool := metadata.words && !metadata.stale

def hasFuzzy (metadata : Metadata) : Bool := metadata.hasWords && metadata.fuzzy

def onOff (on : Bool) : String := if on then "ON" else "OFF"

def entry (key value : String) : String := " " ++ key ++ ": " ++ value ++ "\n"

def report (metadata : Metadata) : String :=
  "Database Properties\n" ++
  entry "Name" metadata.name ++
  entry "Database Size" (Report.size metadata.storeSize) ++
  entry "Nodes" (toString metadata.nodes) ++
  entry "Height" (toString metadata.height) ++
  "\nDatabase Creation\n" ++
  entry "Input Path" metadata.source ++
  entry "Time Stamp" (Report.time metadata.time) ++
  entry "Input Size" (Report.size metadata.inputSize) ++
  entry "Encoding" metadata.encoding ++
  entry "Documents" (toString metadata.documents) ++
  entry "Chop Whitespaces" (onOff metadata.chop) ++
  entry "Entities" (onOff metadata.expandEntities) ++
  "\nIndexes\n" ++
  if metadata.stale then " Indexes are out of date.\n"
  else
    entry "Path Summary" (onOff metadata.paths) ++
    entry "Text Index" (onOff metadata.texts) ++
    entry "Attribute Index" (onOff metadata.attributes) ++
    entry "Full-Text Index"
      (onOff metadata.words ++ if metadata.words && metadata.fuzzy then " (Fuzzy)" else "")

end Metadata

end XmlStore
