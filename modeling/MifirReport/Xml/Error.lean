/-!
# Why a document is refused

Each stage of reading a document has its own causes of refusal: cutting the text into markup
(`MarkupError`), replacing references (`ReferenceError`), reading the attributes of a tag
(`AttributeError`). `XmlError` collects them with those of namespaces and of nesting, and
`XmlError.message` is the one place that words them. Positions and ranges are byte offsets.
-/

namespace MifirReport.Xml

/-- Markup that does not end, or that begins as nothing known. -/
inductive MarkupError
  | unknownDeclaration
  | unclosedTag
  | unclosedInstruction
  | unclosedComment
  | unclosedCData
  | unclosedDoctype
  | unnamedDoctype
  deriving DecidableEq, Repr

/-- A character reference that names no character. -/
inductive NumberError
  | signed
  | empty
  | invalidDigit
  | tooLarge
  | nul
  | notScalar (code : Nat)
  deriving DecidableEq, Repr

/-- A reference that cannot be replaced, with its range in the text around it. -/
inductive ReferenceError
  | unterminated (first last : Nat)
  | unknownEntity (first last : Nat) (name : String)
  | number (cause : NumberError)
  deriving DecidableEq, Repr

/-- A tag whose attributes cannot be read, with the position in the tag. -/
inductive AttributeError
  | noEquals (position : Nat)
  | noValue (position : Nat)
  | unquoted (position : Nat)
  | unclosed (position : Nat) (quote : Char)
  | duplicate (position previous : Nat)
  deriving DecidableEq, Repr

/-- The causes for which a document is refused. -/
inductive XmlError
  | markup (cause : MarkupError)
  | reference (cause : ReferenceError)
  | attributes (cause : AttributeError)
  | reservedBinding (label uri : List Char)
  | unknownLabel (label : String)
  | mismatchedEnd (expected found : String)
  | unmatchedEnd (found : String)
  | unexpectedEnd
  | secondRoot (name : String)
  | unclosedElement (name : String)
  | noRoot
  deriving DecidableEq, Repr

/-! ## Wording -/

def MarkupError.message : MarkupError → String
  | unknownDeclaration => "syntax error: unknown or missed symbol in markup"
  | unclosedTag => "syntax error: tag not closed: `>` not found before end of input"
  | unclosedInstruction =>
    "syntax error: processing instruction or xml declaration not closed: " ++
      "`?>` not found before end of input"
  | unclosedComment => "syntax error: comment not closed: `-->` not found before end of input"
  | unclosedCData => "syntax error: CDATA not closed: `]]>` not found before end of input"
  | unclosedDoctype => "syntax error: DOCTYPE not closed: `>` not found before end of input"
  | unnamedDoctype =>
    "ill-formed document: `<!DOCTYPE>` declaration does not contain a name of a document type"

def NumberError.message : NumberError → String
  | signed => "unexpected number sign"
  | empty => "cannot parse integer from empty string"
  | invalidDigit => "invalid digit found in string"
  | tooLarge => "number too large to fit in target type"
  | nul => "0x0 character is not permitted in XML"
  | notScalar code => "`" ++ toString code ++ "` is not a valid codepoint"

/-- A byte range, as it is written in a message. -/
def rangeText (first last : Nat) : String :=
  toString first ++ ".." ++ toString last

def ReferenceError.message : ReferenceError → String
  | unterminated first last =>
    "Error while escaping character at range " ++ rangeText first last ++
      ": Cannot find ';' after '&'"
  | unknownEntity first last name =>
    "at " ++ rangeText first last ++ ": unrecognized entity `" ++ name ++ "`"
  | number cause => "invalid character reference: " ++ cause.message

def AttributeError.message : AttributeError → String
  | noEquals position =>
    at_ position ++ "attribute key must be directly followed by `=` or space"
  | noValue position => at_ position ++ "`=` must be followed by an attribute value"
  | unquoted position => at_ position ++ "attribute value must be enclosed in `\"` or `'`"
  | unclosed position quote =>
    at_ position ++ "missing closing quote `" ++ quote.toString ++ "` in attribute value"
  | duplicate position previous =>
    at_ position ++ "duplicated attribute, previous declaration at position " ++ toString previous
where
  at_ (position : Nat) : String := "position " ++ toString position ++ ": "

/-- A byte in upper-case hexadecimal digits, without leading zeros. -/
def hexText (b : UInt8) : String :=
  (String.ofList (Nat.toDigits 16 b.toNat)).toUpper

/-- A text between double quotes, byte by byte: printable ASCII as it is, a quote after a backslash,
any other byte in hexadecimal. -/
def quotedBytes (cs : List Char) : String :=
  "\"" ++ String.join ((String.ofList cs).toUTF8.toList.map byteText) ++ "\""
where
  byteText (b : UInt8) : String :=
    if b = 0x22 then "\\\""
    else if 0x20 ≤ b ∧ b ≤ 0x7E then (Char.ofNat b.toNat).toString
    else "0x" ++ hexText b

def XmlError.message : XmlError → String
  | markup cause => cause.message
  | reference cause => cause.message
  | attributes cause => cause.message
  | reservedBinding label uri =>
    "The namespace prefix '" ++ quotedBytes label ++ "' cannot be bound to '" ++
      quotedBytes uri ++ "'"
  | unknownLabel label => "unknown namespace prefix '" ++ label ++ "'"
  | mismatchedEnd expected found =>
    "ill-formed document: expected `</" ++ expected ++ ">`, but `</" ++ found ++ ">` was found"
  | unmatchedEnd found =>
    "ill-formed document: close tag `</" ++ found ++ ">` does not match any open tag"
  | unexpectedEnd => "unexpected closing tag"
  | secondRoot name => "second root element <" ++ name ++ ">"
  | unclosedElement name => "unexpected end of document inside <" ++ name ++ ">"
  | noRoot => "document has no root element"

end MifirReport.Xml
