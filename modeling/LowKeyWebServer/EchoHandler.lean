import LowKeyWebServer.CompleteHeads
import LowKeyWebServer.ResponseHead
import LowKeyWebServer.UrlDecoding

/-!
# The raw responses of the echo handler

`EchoHandler::getResponse` writes a whole response, head and all; `bad_request` answers with it.
A client reads the request itself out of it (`decode_getResponse`), and for a valid request the
content that its URI encodes (`getResponse_readBack`).
-/

namespace LowKeyWebServer

open SymbolCode

namespace Utils

/-- `Utils::format_status`. -/
def formatStatus (status : Bytes) : Bytes := str "HTTP/1.1 " ++ status ++ str "\r\n"

/-- `Utils::getContent`: what stands between the first two blanks of the request line; `none` is
what `substr` throws. -/
def getContent (request : Bytes) : Option Bytes :=
  let line := findInt crlf request
  let requestLine := request.take (unsignedSize line) ++ crlf
  let request := request.take (unsignedSize line)
  let pos := findInt (str " ") requestLine
  (substr request (unsignedSize (pos + 1))).map fun rest =>
    let content := rest.take (unsignedSize (line - pos))
    content.take (unsignedSize (findInt (str " ") content))

end Utils

namespace EchoHandler

open Dispatcher Utils

/-- The headers of a response, in the order in which they are written. -/
def headers (content : Bytes) : List (Bytes × Bytes) :=
  [(str "Content-type", str "text/plain"), (str "Content-length", str (toString content.length)),
    (str "Connection", str "close")]

/-- A response with this status and this content. -/
def respond (status content : Bytes) : Bytes :=
  formatStatus status ++ (headers content).flatMap (fun h => formatHeader h.1 h.2) ++ formatEnd ++ content

/-- `EchoHandler::getResponse`; the leading slash of the content of a valid request is removed. -/
def getResponse (request : Bytes) (isValid : Bool) : Option Bytes :=
  if isValid then
    ((getContent request).bind (substr · 1)).map fun content => respond (str "200 OK") (urlDecode content)
  else some (respond (str "400 Bad Request") request)

/-! ## Reading a response back -/

section Decode

variable {status : Bytes} {entries : List (Bytes × Bytes)}

/-- The lines of a head, each with its end. -/
theorem join_lines (entries : List (Bytes × Bytes)) (line : Bytes) :
    line ++ (crlf ++ (entries.flatMap (fun e => formatHeader e.1 e.2) ++ crlf)) =
      crlf.intercalate (line :: entries.map fun e => e.1 ++ str ": " ++ e.2) ++ (crlf ++ crlf) := by
  induction entries generalizing line with
  | nil => simp
  | cons e entries ih =>
    rw [List.map_cons, List.intercalate_cons_cons, List.flatMap_cons, List.append_assoc,
      List.append_assoc, List.append_assoc, ← ih, formatHeader]
    simp [List.append_assoc, crlf, str]

/-- **Any plain head** is read back line by line, and the rest is the body. -/
theorem decode_lines (hstatus : status ≠ []) (hcr : ('\r' : Byte) ∉ status)
    (hentries : ∀ e ∈ entries, PlainName e.1 ∧ PlainValue e.2) (body : Bytes) :
    decode (status ++ (crlf ++ (entries.flatMap (fun e => formatHeader e.1 e.2) ++ crlf)) ++ body) =
      some (status, entries, body) := by
  have hlines : ∀ l ∈ status :: entries.map (fun e => e.1 ++ str ": " ++ e.2),
      l ≠ [] ∧ ('\r' : Byte) ∉ l := by
    rw [List.forall_mem_cons]
    refine ⟨⟨hstatus, hcr⟩, fun l hl => ?_⟩
    obtain ⟨e, he, rfl⟩ := List.mem_map.mp hl
    obtain ⟨hname, hvalue⟩ := hentries e he
    refine ⟨by simp [str], fun hmem => ?_⟩
    simp only [List.mem_append] at hmem
    rcases hmem with (hmem | hmem) | hmem
    · exact (hname _ hmem).2.1 rfl
    · exact absurd hmem (by decide)
    · exact (hvalue _ hmem).1 rfl
  have hfind := find_emptyLine (List.cons_ne_nil _ _) hlines body
  have hsplit := splitLines_intercalate (List.cons_ne_nil _ _) fun l hl => (hlines l hl).2
  rw [join_lines, decode, List.append_assoc, hfind]
  dsimp only
  rw [List.take_left, hsplit, ← List.drop_drop, List.drop_left]
  dsimp only
  rw [mapM_splitEntry fun e he => (hentries e he).1]
  rfl

end Decode

theorem plain_headers (content : Bytes) : ∀ e ∈ headers content, PlainName e.1 ∧ PlainValue e.2 := by
  simp only [headers, List.forall_mem_cons]
  exact ⟨by decide, ⟨by decide, plainValue_length _⟩, by decide, fun _ h => absurd h List.not_mem_nil⟩

theorem decode_respond {status : Bytes} (hcr : ('\r' : Byte) ∉ status) (content : Bytes) :
    decode (respond status content) = some (str "HTTP/1.1 " ++ status, headers content, content) := by
  have hline : ('\r' : Byte) ∉ str "HTTP/1.1 " ++ status := by
    rw [List.mem_append, not_or]
    exact ⟨by decide, hcr⟩
  have hshape : respond status content = str "HTTP/1.1 " ++ status ++
      (crlf ++ ((headers content).flatMap (fun e => formatHeader e.1 e.2) ++ crlf)) ++ content := by
    simp [respond, formatStatus, formatEnd, crlf, str]
  rw [hshape]
  exact decode_lines (by simp [str]) hline (plain_headers content) content

/-- A bad request is quoted: its text is the body, and its length is declared. -/
theorem decode_getResponse (request : Bytes) :
    (getResponse request false).bind decode =
      some (str "HTTP/1.1 400 Bad Request", headers request, request) :=
  decode_respond (by decide) request

/-! ## The content of a valid request -/

variable {method uri rest : Bytes}

/-- **Between the first two blanks** of a request line in the range of `int`. -/
theorem getContent_line (hmethod : ∀ c ∈ method, c ≠ ' ' ∧ c ≠ '\r')
    (huri : ∀ c ∈ uri, c ≠ ' ' ∧ c ≠ '\r') (hrest : ('\r' : Byte) ∉ rest) (tail : Bytes)
    (hlen : (method ++ str " " ++ uri ++ str " " ++ rest).length < 2 ^ 31) :
    getContent (method ++ str " " ++ uri ++ str " " ++ rest ++ crlf ++ tail) = some uri := by
  have hblank : (' ' : Byte) ∉ method := fun h => (hmethod _ h).1 rfl
  have hblank' : (' ' : Byte) ∉ uri := fun h => (huri _ h).1 rfl
  generalize hline : method ++ str " " ++ uri ++ str " " ++ rest = line at hlen ⊢
  have hcr : ('\r' : Byte) ∉ line := by
    rw [← hline]
    simp only [List.mem_append, not_or]
    exact ⟨⟨⟨⟨fun h => (hmethod _ h).2 rfl, by decide⟩, fun h => (huri _ h).2 rfl⟩, by decide⟩, hrest⟩
  have hend : find crlf (line ++ (crlf ++ tail)) = some line.length := find_first hcr tail
  have hfirst : find (str " ") (line ++ crlf) = some method.length := by
    have htext : line ++ crlf = method ++ ((' ' : Byte) :: (uri ++ str " " ++ rest ++ crlf)) := by
      simp [← hline, str]
    rw [htext]
    exact find_char_append hblank _
  have hsecond : find (str " ") (uri ++ str " " ++ rest) = some uri.length := by
    have htext : uri ++ str " " ++ rest = uri ++ ((' ' : Byte) :: rest) := by simp [str]
    rw [htext]
    exact find_char_append hblank' rest
  have hsize : line.length = method.length + 1 + uri.length + 1 + rest.length := by
    rw [← hline]
    simp only [List.length_append, str, List.length_map]
    rfl
  have hdrop : line.drop (method.length + 1) = uri ++ str " " ++ rest := by
    have htext : line = method ++ str " " ++ (uri ++ str " " ++ rest) := by simp [← hline]
    rw [htext, List.drop_left' (by simp [str])]
  rw [getContent, List.append_assoc, findInt_some hend hlen, unsignedSize_nat (by omega),
    List.take_left, findInt_some hfirst (by omega)]
  dsimp only
  have hpos : unsignedSize ((method.length : Int) + 1) = method.length + 1 :=
    unsignedSize_nat (n := method.length + 1) (by omega)
  have hcount : unsignedSize ((line.length : Int) - method.length) = line.length - method.length := by
    rw [unsignedSize]
    omega
  -- the count reaches behind the end of the line
  have hwhole : (uri ++ str " " ++ rest).take (line.length - method.length) = uri ++ str " " ++ rest := by
    rw [← hdrop, List.take_of_length_le]
    rw [List.length_drop]
    omega
  rw [hpos, substr, if_pos (by omega), Option.map_some, hdrop, hcount, hwhole,
    findInt_some hsecond (by omega), unsignedSize_nat (by omega), List.append_assoc, List.take_left]

/-- **The raw responses are read back**: a bad request is quoted whole, under its own length; a
request line for an encoded string is answered with that string. -/
theorem getResponse_readBack {content enc : Bytes} (hmethod : ∀ c ∈ method, c ≠ ' ' ∧ c ≠ '\r')
    (henc : Encodes PercentWord content enc) (huri : ∀ c ∈ enc, c ≠ ' ' ∧ c ≠ '\r')
    (hrest : ('\r' : Byte) ∉ rest) (tail : Bytes)
    (hlen : (method ++ str " " ++ (('/' : Byte) :: enc) ++ str " " ++ rest).length < 2 ^ 31) :
    (getResponse (method ++ str " " ++ (('/' : Byte) :: enc) ++ str " " ++ rest ++ crlf ++ tail) true).bind
        decode = some (str "HTTP/1.1 200 OK", headers content, content) ∧
      ∀ request, (getResponse request false).bind decode =
        some (str "HTTP/1.1 400 Bad Request", headers request, request) := by
  refine ⟨?_, decode_getResponse⟩
  have huri' : ∀ c ∈ ('/' : Byte) :: enc, c ≠ ' ' ∧ c ≠ '\r' :=
    List.forall_mem_cons.mpr ⟨by decide, huri⟩
  rw [getResponse, if_pos rfl, getContent_line hmethod huri' hrest tail hlen, Option.bind_some, substr,
    if_pos (by simp), Option.map_some, Option.bind_some, List.drop_one, List.tail_cons,
    urlDecode_encodes henc]
  exact decode_respond (by decide) content

/-- The theorem at a request with an escape. -/
theorem getResponse_readBack_blank :
    (getResponse (str "GET" ++ str " " ++ (('/' : Byte) :: str "a%20b") ++ str " " ++ str "HTTP/1.1" ++
        crlf ++ crlf) true).bind decode =
      some (str "HTTP/1.1 200 OK", headers (str "a b"), str "a b") := by
  have hself : ∀ c : Byte, c ≠ '%' → c ≠ '+' → PercentWord c [c] := fun _ => .self
  have hblank : PercentWord ' ' (str "%20") := .escape (h := 2) (l := 0) rfl rfl
  have henc : Encodes PercentWord (str "a b") (str "a%20b") :=
    .cons (hself _ (by decide) (by decide)) (.cons hblank (.cons (hself _ (by decide) (by decide)) .nil))
  exact (getResponse_readBack (forall_mem_of_all (by decide)) henc (forall_mem_of_all (by decide))
    (by decide) crlf (by decide)).1

end EchoHandler

end LowKeyWebServer
