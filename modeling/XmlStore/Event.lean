import XmlStore.Markup.Attribute
import XmlStore.Text.Run

/-!
# Events

A document in the order of its parts. Text may come in any number of chunks, namespace
declarations come right before the element that carries them, and comments and processing
instructions between the two ends of a document type declaration belong to its internal subset.
-/

namespace XmlStore

inductive Event where
  | startDocument
  | endDocument
  | startElement (name : Bytes) (attributes : List Attribute)
  | endElement (name : Bytes)
  | text (chunk : Chunk)
  | comment (text : Bytes)
  | instruction (target data : Bytes)
  | declareNamespace (qualifier uri : Bytes)
  | startDoctype (name : Bytes)
  | endDoctype
  deriving DecidableEq, Repr

/-- What receives events. A failure leaves the state in which the receiver is to go on. -/
abbrev Handler (σ : Type) := Event → EStateM Error σ Unit

end XmlStore
