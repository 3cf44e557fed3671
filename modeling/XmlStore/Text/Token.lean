import XmlStore.Octets
import XmlStore.Text.LowerCase
import XmlStore.Text.Utf8
import XmlStore.Text.Words

/-!
# Tokens

The words of a text as searches compare them: in lower case, and cut off after 256 bytes. A text
and a search are divided in the same way, so that a word of the one meets the same word of the
other.
-/

namespace XmlStore

abbrev Token := List Char

/-- What divides a text into its words. -/
class Segmenter where
  words : List Char → List (List Char)

instance : Segmenter where
  words := Words.ofText

namespace Token

variable [Segmenter]

def maxBytes : Nat := 256

def takeBytes (size : Nat) : List Char → List Char
  | [] => []
  | c :: rest => if c.utf8Size ≤ size then c :: takeBytes (size - c.utf8Size) rest else []

def ofWord (word : List Char) : Token := takeBytes maxBytes (LowerCase.ofChars word)

/-- The tokens of a text in order. The position of a token is its index. -/
def ofText (text : List Char) : List Token := (Segmenter.words text).map ofWord

def ofBytes (bs : Bytes) : List Token := ofText (Utf8.decodeLossy bs)

/-- The number of errors that a tolerant search for a token admits: one for every four characters,
and at least one. -/
def defaultErrors (token : Token) : Nat := max (token.length / 4) 1

end Token

end XmlStore
