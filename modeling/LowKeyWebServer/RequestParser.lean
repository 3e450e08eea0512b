import LowKeyWebServer.Request
import LowKeyWebServer.Lib.Reader

/-!
# The request parser

The character automaton of `request_parser.cc`. `nextCharHandler` is the source's
switch, one branch per state; `parse` is the loop around it, an online reader in the
sense of `Reader`. The reader's result is an `Option`: `none` stands for undefined
behaviour, an index out of range (`path_[path_.size() - 1]` on an empty path, or
`headers_.back()` on an empty vector).
-/

namespace LowKeyWebServer

/-- The value of a hexadecimal digit of either case. -/
def hexVal (c : Byte) : Option Nat :=
  if isDigit c then some (digitVal c)
  else if 'a' ≤ c ∧ c ≤ 'f' then some (c.toNat - 87)
  else if 'A' ≤ c ∧ c ≤ 'F' then some (c.toNat - 55)
  else none

/-- The longest run of hexadecimal digits, as a number; `none` when there is none. -/
def readHexDigits (s : Bytes) : Option Nat :=
  let ds := (s.takeWhile fun c => (hexVal c).isSome).filterMap hexVal
  if ds = [] then none else some (ds.foldl (fun n d => n * 16 + d) 0)

/-- `std::istringstream is(s); is >> std::hex >> value` for a string `s` too short to
overflow: blanks are skipped, a sign and a `0x` prefix are read, and the digits end
at the first other character. `none` is a failed read. -/
def readHex (s : Bytes) : Option Int :=
  let (neg, t) := readSign (s.dropWhile isSpace)
  let t := if str "0x" <+: t ∨ str "0X" <+: t then t.drop 2 else t
  (readHexDigits t).map fun n => if neg then -(n : Int) else (n : Int)

/-- `static_cast<char>(value)`. -/
def toChar (value : Int) : Byte := UInt8.ofNat (value % 256).toNat

namespace RequestParser

/-! ## Character classes -/

/-- A 7-bit character. -/
def isChar (c : Int) : Bool := c ≥ 0 && c ≤ 127

/-- A control character. -/
def isControlChar (c : Int) : Bool := (c ≥ 0 && c ≤ 31) || c == 127

/-- The separators of RFC 2616. -/
def isSpecialChar (c : Int) : Bool :=
  (str "()<>@,;:\\\"/[]?=\x7b\x7d \t").any fun d => c == toInt d

/-- A decimal digit. -/
def isDigit (c : Int) : Bool := c ≥ toInt '0' && c ≤ toInt '9'

/-- The characters that the source keeps out of methods and header names. -/
def isNotToken (input : Byte) : Bool :=
  !isChar (toInt input) || isControlChar (toInt input) || isSpecialChar (toInt input)

/-! ## The state -/

/-- `RequestParser::Result`. -/
inductive Result : Type where
  | good | bad | undefined
  deriving DecidableEq

/-- `RequestParser::state`. -/
inductive State : Type where
  | methodStart | method | uri
  | versionH | versionFirstT | versionSecondT | versionP | versionSlash
  | versionMajorStart | versionMajor | versionMinorStart | versionMinor
  | newline1 | headerStart | headerLws | headerName | spaceBeforeHeaderValue | headerValue
  | newline2 | newline3 | body
  deriving DecidableEq

end RequestParser

/-- The members of `RequestParser`. -/
structure RequestParser : Type where
  /-- the state of the automaton -/
  state : RequestParser.State
  /-- body characters still to come; neither initialised nor reset by the source -/
  remaining : UInt64
  /-- the entire unparsed request -/
  rawRequest : Bytes
  /-- path represented by the URI -/
  path : Bytes
  /-- HTTP version the requester is using -/
  version : Bytes
  /-- the method, as sent -/
  method : Bytes
  /-- the resource for the request -/
  uri : Bytes
  /-- headers included in the request, in order -/
  headers : List (Bytes × Bytes)
  /-- body of the request -/
  body : Bytes

namespace RequestParser

/-- The constructor; `remaining` keeps whatever the memory held. -/
def init (remaining : UInt64) : RequestParser :=
  ⟨.methodStart, remaining, [], [], [], [], [], [], []⟩

/-- `RequestParser::Reset()`. -/
def reset (p : RequestParser) : RequestParser := init p.remaining

/-- The fresh parser state: `_method_start`, and every accumulator empty. -/
def Fresh (p : RequestParser) : Prop := p = init p.remaining

@[simp] theorem init_remaining (r : UInt64) : (init r).remaining = r := rfl

theorem fresh_init (r : UInt64) : (init r).Fresh := rfl

theorem fresh_reset (p : RequestParser) : p.reset.Fresh := rfl

instance (p : RequestParser) : Decidable p.Fresh :=
  decidable_of_iff
    (p.state = .methodStart ∧ p.rawRequest = [] ∧ p.path = [] ∧ p.version = [] ∧
      p.method = [] ∧ p.uri = [] ∧ p.headers = [] ∧ p.body = []) (by
    cases p
    simp only [Fresh, init, RequestParser.mk.injEq, true_and])

/-! ## Accessors -/

/-- `RequestParser::GetHeaderValue`: the first header of that name, or the empty string. -/
def getHeaderValue (p : RequestParser) (name : Bytes) : Bytes :=
  ((p.headers.find? fun h => h.1 == name).map Prod.snd).getD []

/-- `RequestParser::getMethod`: the method's name in either case; the last branch is `PATCH`. -/
def getMethod (p : RequestParser) : Method :=
  let method := p.method.map toUpper
  if method = str "GET" then .get
  else if method = str "POST" then .post
  else if method = str "PUT" then .put
  else if method = str "DELETE" then .delete
  else if method = str "HEAD" then .head
  else if method = str "CONNECT" then .connect
  else if method = str "OPTIONS" then .options
  else if method = str "TRACE" then .trace
  else .patch

/-- `RequestParser::getHeaderMap`: a `std::map` built from a range keeps the first entry of a key. -/
def getHeaderMap (p : RequestParser) : StringMap Bytes :=
  p.headers.foldl (fun m h => m.insertIfNew h.1 h.2) ∅

/-- The fields that `Parse` writes to the `Request` once the input is decided. -/
def toRequest (p : RequestParser) : Request :=
  { method := p.getMethod, uri := p.uri, headers := p.getHeaderMap, body := p.body,
    version := p.version }

/-- `headers_.back() = f(headers_.back())`; undefined on an empty vector. -/
def modifyBack (f : Bytes × Bytes → Bytes × Bytes) :
    List (Bytes × Bytes) → Option (List (Bytes × Bytes))
  | [] => none
  | [h] => some [f h]
  | h :: hs => (modifyBack f hs).map (h :: ·)

@[simp] theorem modifyBack_concat (f : Bytes × Bytes → Bytes × Bytes)
    (hs : List (Bytes × Bytes)) (h : Bytes × Bytes) :
    modifyBack f (hs ++ [h]) = some (hs ++ [f h]) := by
  induction hs with
  | nil => rfl
  | cons g hs ih =>
    rcases hs with - | ⟨g', hs⟩
    · rfl
    · rw [List.cons_append] at ih ⊢
      rw [List.cons_append, modifyBack, ih]
      · rfl
      · exact List.cons_ne_nil _ _

/-! ## The path of a URI -/

/-- The decoding loop of case `_uri`: `%HH` to a byte, `+` to a blank; `none` is the
early return on a bad escape. -/
def decodePath : Bytes → Option Bytes
  | [] => some []
  | c :: rest =>
    if c = '%' then
      match rest with
      | a :: b :: t =>
        match readHex [a, b] with
        | some value => (decodePath t).map (toChar value :: ·)
        | none => none
      | _ => none
    else if c = '+' then (decodePath rest).map ((' ' : Byte) :: ·)
    else (decodePath rest).map (c :: ·)

/-- `path_` once the blank after the URI is read: the decoded path must not go
backwards in the directory, and a directory gets its index page. The outer `none` is
`path_[path_.size() - 1]` on an empty path. -/
def inferPath (path uri : Bytes) : Option Bytes :=
  match decodePath uri with
  | none => some []
  | some decoded =>
    let path := path ++ decoded
    if (find (str "..") path).isSome then some []
    else
      match path.getLast? with
      | none => none
      | some c => if c = '/' then some (path ++ str "index.html") else some path

/-! ## The automaton -/

/-- `RequestParser::NextCharHandler`. -/
def nextCharHandler (p : RequestParser) (input : Byte) : Option (Result × RequestParser) :=
  let p := { p with rawRequest := p.rawRequest ++ [input] }
  match p.state with
  | .methodStart =>
    if isNotToken input then some (.bad, p)
    else some (.undefined, { p with state := .method, method := p.method ++ [input] })
  | .method =>
    if input = ' ' then some (.undefined, { p with state := .uri })
    else if isNotToken input then some (.bad, p)
    else some (.undefined, { p with method := p.method ++ [input] })
  | .uri =>
    if input = ' ' then
      (inferPath p.path p.uri).map fun path =>
        (.undefined, { p with state := .versionH, path := path })
    else if isControlChar (toInt input) then some (.bad, p)
    else some (.undefined, { p with uri := p.uri ++ [input] })
  | .versionH =>
    if input = 'H' then
      some (.undefined, { p with state := .versionFirstT, version := p.version ++ str "H" })
    else some (.bad, p)
  | .versionFirstT =>
    if input = 'T' then
      some (.undefined, { p with state := .versionSecondT, version := p.version ++ str "T" })
    else some (.bad, p)
  | .versionSecondT =>
    if input = 'T' then
      some (.undefined, { p with state := .versionP, version := p.version ++ str "T" })
    else some (.bad, p)
  | .versionP =>
    if input = 'P' then
      some (.undefined, { p with state := .versionSlash, version := p.version ++ str "P" })
    else some (.bad, p)
  | .versionSlash =>
    if input = '/' then
      some (.undefined, { p with state := .versionMajorStart, version := p.version ++ str "/" })
    else some (.bad, p)
  | .versionMajorStart =>
    if isDigit (toInt input) then
      some (.undefined, { p with state := .versionMajor, version := p.version ++ [input] })
    else some (.bad, p)
  | .versionMajor =>
    if input = '.' then
      some (.undefined, { p with state := .versionMinorStart, version := p.version ++ str "." })
    else if isDigit (toInt input) then
      some (.undefined, { p with version := p.version ++ [input] })
    else some (.bad, p)
  | .versionMinorStart =>
    if isDigit (toInt input) then
      some (.undefined, { p with state := .versionMinor, version := p.version ++ [input] })
    else some (.bad, p)
  | .versionMinor =>
    if input = '\r' then some (.undefined, { p with state := .newline1 })
    else if isDigit (toInt input) then
      some (.undefined, { p with version := p.version ++ [input] })
    else some (.bad, p)
  | .newline1 =>
    if input = '\n' then some (.undefined, { p with state := .headerStart })
    else some (.bad, p)
  | .headerStart =>
    if input = '\r' then some (.undefined, { p with state := .newline3 })
    else if p.headers ≠ [] ∧ (input = ' ' ∨ input = '\t') then
      some (.undefined, { p with state := .headerLws })
    else if isNotToken input then some (.bad, p)
    else some (.undefined, { p with state := .headerName, headers := p.headers ++ [([input], [])] })
  | .headerLws =>
    if input = '\r' then some (.undefined, { p with state := .newline2 })
    else if input = ' ' ∨ input = '\t' then some (.undefined, p)
    else if isControlChar (toInt input) then some (.bad, p)
    else (modifyBack (fun h => (h.1, h.2 ++ [input])) p.headers).map fun headers =>
      (.undefined, { p with state := .headerValue, headers := headers })
  | .headerName =>
    if input = ':' then some (.undefined, { p with state := .spaceBeforeHeaderValue })
    else if isNotToken input then some (.bad, p)
    else (modifyBack (fun h => (h.1 ++ [input], h.2)) p.headers).map fun headers =>
      (.undefined, { p with headers := headers })
  | .spaceBeforeHeaderValue =>
    if input = ' ' then some (.undefined, { p with state := .headerValue })
    else some (.bad, p)
  | .headerValue =>
    if input = '\r' then some (.undefined, { p with state := .newline2 })
    else if isControlChar (toInt input) then some (.bad, p)
    else (modifyBack (fun h => (h.1, h.2 ++ [input])) p.headers).map fun headers =>
      (.undefined, { p with headers := headers })
  | .newline2 =>
    if input = '\n' then some (.undefined, { p with state := .headerStart })
    else some (.bad, p)
  | .newline3 =>
    if input = '\n' then
      -- `std::stoull` throws when there is no number: the request has no body then
      match stoull (p.getHeaderValue (str "Content-Length")) with
      | some remaining =>
        if remaining > 0 then
          some (.undefined, { p with state := .body, remaining := remaining })
        else some (.good, { p with remaining := remaining })
      | none => some (.good, p)
    else some (.bad, p)
  | .body =>
    let p := { p with body := p.body ++ [input], remaining := p.remaining - 1 }
    if p.remaining > 0 then some (.undefined, p) else some (.good, p)

/-- The automaton as a reader: `undefined` reads on, `good` and `bad` stop. -/
def step (p : RequestParser) (input : Byte) :
    Reader.Step RequestParser (Option (Result × RequestParser)) :=
  match nextCharHandler p input with
  | none => .done none
  | some (.undefined, p') => .more p'
  | some (r, p') => .done (some (r, p'))

/-- What `RequestParser::Parse` returns and leaves behind. -/
structure ParseOutcome : Type where
  /-- good, bad or undefined -/
  result : Result
  /-- what the returned iterator still has to read -/
  rest : Bytes
  /-- the parser afterwards -/
  parser : RequestParser
  /-- the `Request` argument afterwards -/
  request : Request

/-- `RequestParser::Parse`: the `Request` is written, and the parser reset, only when
the input is decided. `none` is undefined behaviour. -/
def parse (p : RequestParser) (req : Request) (s : Bytes) : Option ParseOutcome :=
  match Reader.run step p s with
  | .pending p' => some ⟨.undefined, [], p', req⟩
  | .decided none _ => none
  | .decided (some (r, p')) rest => some ⟨r, rest, p'.reset, p'.toRequest⟩

end RequestParser

end LowKeyWebServer
