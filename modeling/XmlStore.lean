import XmlStore.Event.Log
import XmlStore.Ingest
import XmlStore.Proofs.Agreement
import XmlStore.Proofs.Ascending
import XmlStore.Proofs.Budget
import XmlStore.Proofs.Changes
import XmlStore.Proofs.CharacterNumbers
import XmlStore.Proofs.CodePoints
import XmlStore.Proofs.Distance
import XmlStore.Proofs.DoctypeEnds
import XmlStore.Proofs.EmptyChunks
import XmlStore.Proofs.Endings
import XmlStore.Proofs.Finished
import XmlStore.Proofs.Indexing
import XmlStore.Proofs.Joining
import XmlStore.Proofs.Leftovers
import XmlStore.Proofs.Lexical
import XmlStore.Proofs.LineEnds
import XmlStore.Proofs.LockStep
import XmlStore.Proofs.MissingNames
import XmlStore.Proofs.Naming
import XmlStore.Proofs.Negating
import XmlStore.Proofs.NormalForm
import XmlStore.Proofs.Numbering
import XmlStore.Proofs.Occurrences
import XmlStore.Proofs.Ordering
import XmlStore.Proofs.Overlaps
import XmlStore.Proofs.Recalling
import XmlStore.Proofs.Recutting
import XmlStore.Proofs.Relaying
import XmlStore.Proofs.Replaying
import XmlStore.Proofs.Rereading
import XmlStore.Proofs.Resending
import XmlStore.Proofs.Scanning
import XmlStore.Proofs.Searching
import XmlStore.Proofs.StringValues
import XmlStore.Proofs.Substituting
import XmlStore.Proofs.Transcoding
import XmlStore.Proofs.Valuing
import XmlStore.Reader
import XmlStore.Search.Expression
