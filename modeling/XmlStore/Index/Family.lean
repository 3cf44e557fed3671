import XmlStore.Config
import XmlStore.Index.Paths
import XmlStore.Index.Values
import XmlStore.Index.Words

/-!
# The indexes of a document

The indexes that the options ask for, kept up node by node while the document is built.
-/

namespace XmlStore

structure Indexes where
  paths : Option PathSummary := none
  texts : Option ValueIndex := none
  attributes : Option ValueIndex := none
  words : Option WordIndex := none
  deriving DecidableEq, Repr

namespace Indexes

def ofOptions (options : IndexOptions) : Indexes :=
  let values : ValueIndex := { maxLength := options.maxValueLength }
  { paths := if options.paths then some .initial else none
    texts := if options.texts then some values else none
    attributes := if options.attributes then some values else none
    words := if options.words then some { fuzzy := options.fuzzy } else none }

def enterElement (indexes : Indexes) (name : Bytes) : Indexes :=
  { indexes with paths := indexes.paths.map (·.enter name) }

def leaveElement (indexes : Indexes) : Indexes :=
  { indexes with paths := indexes.paths.map (·.leave) }

def addAttribute (indexes : Indexes) (position : Nat) (name value : Bytes) : Indexes :=
  { indexes with
    paths := indexes.paths.map (·.addLeaf .attr name)
    attributes := indexes.attributes.map (·.add value position) }

def addText [Segmenter] (indexes : Indexes) (position : Nat) (value : Bytes) : Indexes :=
  { indexes with
    paths := indexes.paths.map (·.addLeaf .text [])
    texts := indexes.texts.map (·.add value position)
    words := indexes.words.map (·.add position value) }

def addLeaf (indexes : Indexes) (kind : NodeKind) : Indexes :=
  { indexes with paths := indexes.paths.map (·.addLeaf kind []) }

def summary (indexes : Indexes) : String :=
  let parts :=
    (indexes.paths.map fun paths => "paths=" ++ toString paths.size).toList ++
    (indexes.texts.map fun texts => "texts=" ++ toString texts.size).toList ++
    (indexes.attributes.map fun values => "attributes=" ++ toString values.size).toList ++
    (indexes.words.map fun words =>
      "tokens=" ++ toString words.size ++ if words.fuzzy then " (fuzzy)" else "").toList
  if parts.isEmpty then "none" else " ".intercalate parts

end Indexes

end XmlStore
