import XmlStore.Text.Encoding

/-!
# Errors

Each way in which reading, building or searching fails is a constructor, and the wording of each
stands in one function. Names and values from a document are quoted in their lossy decoding.
-/

namespace XmlStore

inductive Fault where
  | attributeName
  | missingEquals (name : Bytes)
  | unquotedValue
  | unterminatedValue
  | lessThanInValue
  | duplicateAttribute (name : Bytes)
  | doctypeName
  | unterminatedSubset
  | unexpectedSubsetContent
  | entityName
  | unterminatedEntityDeclaration
  | unterminatedDeclaration
  | missingLiteral
  | unterminatedLiteral
  | unterminatedComment
  | doubleHyphen
  | unterminatedInstruction
  | instructionTarget
  | misplacedXmlDeclaration
  | malformedXmlDeclaration
  | unterminatedReference
  | malformedReference
  | referenceOutsideRoot
  | textOutsideRoot
  | sectionOutsideRoot
  | unterminatedSection
  | misplacedDoctype
  | unterminatedDoctype
  | truncatedMarkup
  | unknownDeclaration
  | afterLessThan
  | unterminatedStartTag
  | secondRoot
  | unterminatedEndTag
  | mismatchedEndTag (found expected : Bytes)
  | unexpectedEndTag (name : Bytes)
  | unclosedElement (name : Bytes)
  | missingRoot
  | unexpectedEnd
  deriving DecidableEq, Repr

def Fault.message : Fault → String
  | .attributeName => "attribute name must start with letter, underscore, or colon"
  | .missingEquals name => "expected '=' after attribute " ++ Utf8.lossy name
  | .unquotedValue => "attribute value must be quoted"
  | .unterminatedValue => "unterminated attribute value"
  | .lessThanInValue => "'<' not allowed in attribute value"
  | .duplicateAttribute name => "attribute '" ++ Utf8.lossy name ++ "' specified twice"
  | .doctypeName => "DOCTYPE requires a name"
  | .unterminatedSubset => "unterminated internal subset"
  | .unexpectedSubsetContent => "unexpected content in internal subset"
  | .entityName => "ENTITY requires a name"
  | .unterminatedEntityDeclaration => "unterminated ENTITY declaration"
  | .unterminatedDeclaration => "unterminated declaration"
  | .missingLiteral => "expected quoted literal"
  | .unterminatedLiteral => "unterminated literal"
  | .unterminatedComment => "unterminated comment"
  | .doubleHyphen => "'--' is not allowed inside a comment"
  | .unterminatedInstruction => "unterminated processing instruction"
  | .instructionTarget => "invalid processing instruction target"
  | .misplacedXmlDeclaration => "XML declaration is only allowed at the start of the document"
  | .malformedXmlDeclaration => "malformed XML declaration"
  | .unterminatedReference => "unterminated entity reference"
  | .malformedReference => "malformed entity reference"
  | .referenceOutsideRoot => "entity reference outside the root element"
  | .textOutsideRoot => "text is not allowed outside the root element"
  | .sectionOutsideRoot => "CDATA section outside the root element"
  | .unterminatedSection => "unterminated CDATA section"
  | .misplacedDoctype => "DOCTYPE is only allowed once, before the root element"
  | .unterminatedDoctype => "unterminated DOCTYPE declaration"
  | .truncatedMarkup => "unexpected end of input in markup"
  | .unknownDeclaration => "unknown markup declaration"
  | .afterLessThan => "invalid character after '<'"
  | .unterminatedStartTag => "unterminated start tag"
  | .secondRoot => "only one root element is allowed"
  | .unterminatedEndTag => "unterminated end tag"
  | .mismatchedEndTag found expected =>
    "end tag '" ++ Utf8.lossy found ++ "' does not match start tag '" ++ Utf8.lossy expected ++ "'"
  | .unexpectedEndTag name => "unexpected end tag '" ++ Utf8.lossy name ++ "'"
  | .unclosedElement name => "element '" ++ Utf8.lossy name ++ "' is not closed"
  | .missingRoot => "document has no root element"
  | .unexpectedEnd => "unexpected end of input"

inductive ReferenceFault where
  | limitExceeded (limit : Nat)
  /-- The reference includes its number sign. -/
  | invalidCharacter (reference : Bytes)
  | recursive (name : Bytes)
  | undeclared (name : Bytes)
  deriving DecidableEq, Repr

def ReferenceFault.message : ReferenceFault → String
  | .limitExceeded limit => "entity expansion limit of " ++ toString limit ++ " exceeded"
  | .invalidCharacter reference =>
    "invalid character reference '&" ++ Utf8.lossy reference ++ ";'"
  | .recursive name => "entity '" ++ Utf8.lossy name ++ "' references itself"
  | .undeclared name => "undeclared entity '" ++ Utf8.lossy name ++ "'"

inductive EventKind where
  | documentEnd
  | elementStart
  | elementEnd
  | characterData
  | comment
  | instruction
  | namespaceDeclaration
  deriving DecidableEq, Repr

def EventKind.label : EventKind → String
  | .documentEnd => "document end"
  | .elementStart => "element start"
  | .elementEnd => "element end"
  | .characterData => "character data"
  | .comment => "comment"
  | .instruction => "processing instruction"
  | .namespaceDeclaration => "namespace declaration"

inductive OrderFault where
  | fedAfterFinish
  | finishedTwice
  | startedTwice
  | beforeStart (kind : EventKind)
  | afterEnd (kind : EventKind)
  | endedWithOpenElements (count : Nat)
  | unmatchedEnd (name : Bytes)
  deriving DecidableEq, Repr

def OrderFault.message : OrderFault → String
  | .fedAfterFinish => "input fed after finish"
  | .finishedTwice => "parser already finished"
  | .startedTwice => "document started twice"
  | .beforeStart kind => kind.label ++ " before document start"
  | .afterEnd kind => kind.label ++ " after document end"
  | .endedWithOpenElements count =>
    "document ended with " ++ toString count ++ " open element(s)"
  | .unmatchedEnd name => "end of element " ++ Utf8.lossy name ++ " without matching start"

/-- What is told by numbers of 32 bits. -/
inductive Counted where
  | nodes
  | values
  | depth
  | attributes
  deriving DecidableEq, Repr

def Counted.label : Counted → String
  | .nodes => "node table"
  | .values => "value buffer"
  | .depth => "depth"
  | .attributes => "attribute list"

def maxEntry : Nat := 4294967295

inductive BuildFault where
  /-- The receiver of the nodes refuses a call for a reason of its own. -/
  | refused (reason : String)
  | nodeBeforeStart
  | nodeAfterEnd
  | noOpenNode
  | startedTwice
  | undeclaredQualifier (qualifier : Bytes)
  | unclosedElements (count : Nat)
  | danglingNamespace
  | nothingToClose (name : Bytes)
  | mismatchedClose (found expected : Bytes)
  | exceeded (counted : Counted)
  | unfinished
  deriving DecidableEq, Repr

def BuildFault.isStructural : BuildFault → Bool
  | .refused _ => false
  | _ => true

def BuildFault.text : BuildFault → String
  | .refused reason => reason
  | .nodeBeforeStart => "node before document start"
  | .nodeAfterEnd => "node after document end"
  | .noOpenNode => "no open node"
  | .startedTwice => "document already started"
  | .undeclaredQualifier qualifier =>
    "namespace prefix '" ++ Utf8.lossy qualifier ++ "' is not declared"
  | .unclosedElements count => "document ends with " ++ toString count ++ " unclosed element(s)"
  | .danglingNamespace => "namespace declared without a following element"
  | .nothingToClose name => "end of element '" ++ Utf8.lossy name ++ "' without open element"
  | .mismatchedClose found expected =>
    "end tag '" ++ Utf8.lossy found ++ "' does not match open element '" ++
      Utf8.lossy expected ++ "'"
  | .exceeded counted => counted.label ++ " exceeds " ++ toString maxEntry ++ " entries"
  | .unfinished => "document was not finished"

def BuildFault.message (fault : BuildFault) : String :=
  if fault.isStructural then "invalid document structure: " ++ fault.text
  else "I/O error: " ++ fault.text

inductive Error where
  | malformed (position : Nat) (fault : Fault)
  | reference (fault : ReferenceFault)
  | encoding (fault : EncodingFault)
  | order (fault : OrderFault)
  | build (fault : BuildFault)
  | missingFile
  /-- No buffer can be as long as the first one of the file was to be. Nothing is read. -/
  | oversizedBuffer
  /-- An internal subset holds an item `<?>`, whose two delimiters share the question mark. Such
  an item has no content to read, and nothing is read after it. -/
  | sharedDelimiter
  deriving DecidableEq, Repr

def Error.shift (distance : Nat) : Error → Error
  | .malformed position fault => .malformed (position + distance) fault
  | fault => fault

def Error.message : Error → String
  | .malformed position fault =>
    "syntax error at byte " ++ toString position ++ ": " ++ fault.message
  | .reference fault => "entity error: " ++ fault.message
  | .encoding fault => "encoding error: " ++ fault.message
  | .order fault => "unexpected event: " ++ fault.message
  | .build fault => fault.message
  | .missingFile => "cannot read input: No such file or directory (os error 2)"
  | .oversizedBuffer => "capacity overflow"
  | .sharedDelimiter => "the delimiters of an empty processing instruction overlap"

end XmlStore
