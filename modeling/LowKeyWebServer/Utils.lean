import LowKeyWebServer.Request
import LowKeyWebServer.Lib.Regex

/-!
# The checks of a raw request

`Utils::check_method`, `check_header`, `complete`, `filter_CRLF`, `check_requestLine` and
`check_request` of `utils.cc`. A Boost.Xpressive pattern is a `Regex`: its `.` matches
every character, line ends included, and `regex_match` is a full match.
-/

namespace LowKeyWebServer

namespace Utils

/-! ## Patterns -/

/-- The class `[a-b]`. -/
def range (a b : Byte) : Regex Byte := .cls fun c => a ≤ c && c ≤ b

/-- The class `[A-Za-z]`. -/
def letter : Regex Byte := .cls fun c => ('A' ≤ c && c ≤ 'Z') || ('a' ≤ c && c ≤ 'z')

/-- The pattern `\s`. -/
def space : Regex Byte := .cls isSpace

/-- The class `[\w-\d]`: letters, digits, the underscore and the hyphen. -/
def hostChar : Regex Byte :=
  .cls fun c => ('A' ≤ c && c ≤ 'Z') || ('a' ≤ c && c ≤ 'z') || isDigit c || c == '_' || c == '-'

/-- `\s+(HTTP\/[1-2]\.[0-2])(\r\n)`. -/
def versionPattern : Regex Byte :=
  .seq [.plus space, .word (str "HTTP/"), range '1' '2', .word (str "."), range '0' '2',
    .word crlf]

/-- `[A-Z]+\s(\/.*)\s+(HTTP\/[1-2]\.[0-2])(\r\n)`. -/
def requestLine : Regex Byte :=
  .seq [.plus (range 'A' 'Z'), space, .word (str "/"), .star .any, versionPattern]

/-- `([A-Za-z]+)\s(http:\/\/www\.|…)([\w-\d]+\.)+([\w-\d]+)(\/.*)\s+(HTTP\/…)(\r\n)`. -/
def absolutePath : Regex Byte :=
  .seq [.plus letter, space,
    .alt (.word (str "http://www.")) (.alt (.word (str "https://www."))
      (.alt (.word (str "http://")) (.word (str "https://")))),
    .plus (.cat (.plus hostChar) (.word (str "."))), .plus hostChar,
    .word (str "/"), .star .any, versionPattern]

/-- `([a-zA-Z]+(-([a-zA-z]+))*):\s*(.*)`; the second class is the range from `A` to `z`. -/
def headerPattern : Regex Byte :=
  .seq [.plus letter, .star (.cat (.word (str "-")) (.plus (range 'A' 'z'))), .word (str ":"),
    .star space, .star .any]

/-! ## Checks -/

/-- `Utils::check_method`: `none` is the code -1. -/
def checkMethod (method : Bytes) : Option Method :=
  if method = str "GET" then some .get
  else if method = str "POST" then some .post
  else if method = str "PUT" then some .put
  else if method = str "DELETE" then some .delete
  else if method = str "HEAD" then some .head
  else if method = str "CONNECT" then some .connect
  else if method = str "OPTIONS" then some .options
  else if method = str "TRACE" then some .trace
  else if method = str "PATCH" then some .patch
  else none

/-- `Utils::check_header`. -/
def checkHeader (header : Bytes) : Bool := headerPattern.isMatch header

/-- `Utils::complete`: the request is complete. -/
def complete (request : Bytes) (bytesTransferred : Nat) : Bool :=
  request == crlf && bytesTransferred == 2

/-- `boost::replace_all(request, "\r\n", "")`. -/
def removeCRLF : Bytes → Bytes
  | [] => []
  | [c] => [c]
  | c :: d :: s => if c = '\r' ∧ d = '\n' then removeCRLF s else c :: removeCRLF (d :: s)

/-- `Utils::filter_CRLF`: how much is left without the line ends. -/
def filterCRLF (request : Bytes) : Nat := (removeCRLF request).length

/-- `Utils::check_requestLine`. -/
def checkRequestLine (request : Bytes) : Bool :=
  requestLine.isMatch request || absolutePath.isMatch request

/-- `request.substr(0, request.find(" "))`: everything before the first blank, or all of
it when there is none. -/
def methodName (request : Bytes) : Bytes := request.takeWhile fun c => c != ' '

/-- The loop of `check_request` over the header lines. -/
def checkHeaders (request : Bytes) : Bool :=
  match h : find crlf request with
  | none => false
  | some line =>
    let header := request.take line
    if !checkHeader header && header != [] then false
    -- two line ends in a row
    else if header = [] then true
    else checkHeaders (request.drop (line + 2))
  termination_by request.length
  decreasing_by exact length_drop_find_lt (by decide) h Nat.two_pos

/-- `Utils::check_request`. Where no line end is found, `line` is -1: the request line is
the whole string, and `request.substr(line + 2)` drops its first character. -/
def checkRequest (request : Bytes) : Bool :=
  let line := find crlf request
  let requestLine :=
    (match line with
      | some i => request.take i
      | none => request) ++ crlf
  if !checkRequestLine requestLine then false
  else
    let request :=
      match line with
      | some i => request.drop (i + 2)
      | none => request.drop 1
    if (checkMethod (methodName requestLine)).isNone then false
    else checkHeaders request

/-! ## Line by line -/

theorem checkHeaders_none {s : Bytes} (h : find crlf s = none) : checkHeaders s = false := by
  rw [checkHeaders]
  split
  · rfl
  · next hs =>
    rw [h] at hs
    cases hs

/-- One line of the head. -/
theorem checkHeaders_some {s : Bytes} {i : Nat} (h : find crlf s = some i) :
    checkHeaders s = true ↔
      s.take i = [] ∨ (checkHeader (s.take i) = true ∧ checkHeaders (s.drop (i + 2)) = true) := by
  rw [checkHeaders]
  split
  · next hs =>
    rw [h] at hs
    cases hs
  · next j hs =>
    rw [h] at hs
    obtain rfl := Option.some.inj hs
    by_cases hnil : s.take i = []
    · simp [hnil]
    · rcases hc : checkHeader (s.take i) with - | -
      · simp [hc, hnil]
      · simp [hc, hnil]

/-- Without a line end there is no empty line. -/
theorem checkRequest_none {s : Bytes} (h : find crlf s = none) : checkRequest s = false := by
  have hdrop : find crlf (s.drop 1) = none := by
    rcases s with - | ⟨c, s⟩
    · rfl
    · rw [find] at h
      split at h
      · cases h
      · exact Option.map_eq_none_iff.mp h
  rw [checkRequest, h]
  dsimp only
  rw [checkHeaders_none hdrop]
  split
  · rfl
  · split <;> rfl

/-- The request line, its method, and the header lines. -/
theorem checkRequest_some {s : Bytes} {i : Nat} (h : find crlf s = some i) :
    checkRequest s = true ↔ checkRequestLine (s.take i ++ crlf) = true ∧
      checkMethod (methodName (s.take i ++ crlf)) ≠ none ∧ checkHeaders (s.drop (i + 2)) = true := by
  rw [checkRequest, h]
  rcases hl : checkRequestLine (s.take i ++ crlf) with - | -
  · simp
  · rcases checkMethod (methodName (s.take i ++ crlf)) with - | m
    · simp
    · simp

end Utils

end LowKeyWebServer
