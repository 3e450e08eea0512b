import LowKeyWebServer.RequestParser

/-!
# The grammar of a request

What the request parser is for, stated without the automaton: a request text is a
method, a URI, a version, headers with their continuation lines, and a body of the
length that the headers declare. The structures carry their own well-formedness, so
that a `RequestText` is a request by construction; `render` is its text and
`toRequest` what a parser has to extract from it.
-/

namespace LowKeyWebServer

/-! ## Classes of bytes -/

/-- The separators that occur in neither methods nor header names. -/
def separators : Bytes := str "()<>@,;:\\\"/[]?=\x7b\x7d \t"

/-- A byte of a method or of a header name. -/
def TokenByte (b : Byte) : Prop := 32 ≤ b ∧ b ≤ 126 ∧ b ∉ separators

/-- Any byte that is not a control character; bytes from 0x80 on are allowed. -/
def TextByte (b : Byte) : Prop := ¬ (b ≤ 31 ∨ b = 127)

/-- A byte of a URI. -/
def UriByte (b : Byte) : Prop := TextByte b ∧ b ≠ ' '

/-- A decimal digit. -/
def DigitByte (b : Byte) : Prop := '0' ≤ b ∧ b ≤ '9'

/-- A blank at the start of a continuation line. -/
def BlankByte (b : Byte) : Prop := b = ' ' ∨ b = '\t'

instance : DecidablePred TokenByte := fun b => by unfold TokenByte; infer_instance
instance : DecidablePred TextByte := fun b => by unfold TextByte; infer_instance
instance : DecidablePred UriByte := fun b => by unfold UriByte; infer_instance
instance : DecidablePred DigitByte := fun b => by unfold DigitByte; infer_instance
instance : DecidablePred BlankByte := fun b => by unfold BlankByte; infer_instance

/-! ## Request texts -/

/-- A continuation line of a header: blanks, then the text it adds to the value. -/
structure Continuation : Type where
  /-- the leading blanks, dropped by the parser -/
  blanks : Bytes
  /-- the text appended to the value, possibly empty -/
  text : Bytes
  /-- there is at least one blank -/
  blanks_ne : blanks ≠ []
  /-- the blanks are spaces and tabs -/
  blanks_blank : ∀ b ∈ blanks, BlankByte b
  /-- the text has no control characters -/
  text_text : ∀ b ∈ text, TextByte b
  /-- the text does not start with a space -/
  text_head : text.head? ≠ some (' ' : Byte)

/-- The text of a continuation line. -/
def Continuation.render (c : Continuation) : Bytes := c.blanks ++ c.text ++ crlf

/-- A header with its continuation lines. -/
structure HeaderText : Type where
  /-- the name, with the case it was sent in -/
  name : Bytes
  /-- the value on the header's own line -/
  value : Bytes
  /-- the continuation lines -/
  conts : List Continuation
  /-- the name is not empty -/
  name_ne : name ≠ []
  /-- the name is a token -/
  name_token : ∀ b ∈ name, TokenByte b
  /-- the value has no control characters -/
  value_text : ∀ b ∈ value, TextByte b

/-- The text of a header. -/
def HeaderText.render (h : HeaderText) : Bytes :=
  h.name ++ str ": " ++ h.value ++ crlf ++ h.conts.flatMap Continuation.render

/-- The header as a name and its folded value. -/
def HeaderText.entry (h : HeaderText) : Bytes × Bytes :=
  (h.name, h.value ++ h.conts.flatMap Continuation.text)

/-- The number of body bytes that the headers declare: what `std::stoull` yields on the
first header named exactly `Content-Length`, and 0 when there is none or it throws. -/
def contentLength (headers : List HeaderText) : Nat :=
  match headers.find? fun h => h.name == str "Content-Length" with
  | none => 0
  | some h => ((stoull h.entry.2).map UInt64.toNat).getD 0

/-- A request: the components, each with its well-formedness. -/
structure RequestText : Type where
  /-- the method, with the case it was sent in -/
  method : Bytes
  /-- the resource -/
  uri : Bytes
  /-- the major version number -/
  major : Bytes
  /-- the minor version number -/
  minor : Bytes
  /-- the headers, in order -/
  headers : List HeaderText
  /-- the body -/
  body : Bytes
  /-- the method is not empty -/
  method_ne : method ≠ []
  /-- the method is a token -/
  method_token : ∀ b ∈ method, TokenByte b
  /-- the URI is not empty -/
  uri_ne : uri ≠ []
  /-- the URI has no blanks and no control characters -/
  uri_uri : ∀ b ∈ uri, UriByte b
  /-- the major version is not empty -/
  major_ne : major ≠ []
  /-- the major version is a number -/
  major_digit : ∀ b ∈ major, DigitByte b
  /-- the minor version is not empty -/
  minor_ne : minor ≠ []
  /-- the minor version is a number -/
  minor_digit : ∀ b ∈ minor, DigitByte b
  /-- the body is as long as the headers declare -/
  body_length : body.length = contentLength headers

namespace RequestText

/-- The version string. -/
def version (t : RequestText) : Bytes := str "HTTP/" ++ t.major ++ str "." ++ t.minor

/-- The text of a request. -/
def render (t : RequestText) : Bytes :=
  t.method ++ str " " ++ t.uri ++ str " " ++ t.version ++ crlf ++
    t.headers.flatMap HeaderText.render ++ crlf ++ t.body

/-- The method names of the enumeration. -/
def methodTable : List (Bytes × Method) :=
  [(str "GET", .get), (str "POST", .post), (str "PUT", .put), (str "DELETE", .delete),
    (str "HEAD", .head), (str "CONNECT", .connect), (str "OPTIONS", .options),
    (str "TRACE", .trace)]

/-- The method of a name in either case: its entry in the table, `PATCH` for every other. -/
def methodOf (name : Bytes) : Method := (methodTable.lookup (name.map toUpper)).getD .patch

/-- What a parser extracts: the components, the headers as a map in which the first
header of a name wins. -/
def toRequest (t : RequestText) : Request where
  method := methodOf t.method
  uri := t.uri
  headers := (t.headers.map HeaderText.entry).foldl (fun m h => m.insertIfNew h.1 h.2) ∅
  body := t.body
  version := t.version

end RequestText

/-- The URI part of `s` is empty: a method, and two blanks after it. -/
def EmptyUri (s : Bytes) : Prop :=
  ∃ method rest, method ≠ [] ∧ (∀ b ∈ method, TokenByte b) ∧ s = method ++ str "  " ++ rest

end LowKeyWebServer
