import LowKeyWebServer.CacheRule
import LowKeyWebServer.HeaderCase
import LowKeyWebServer.RequestParserCorrect

/-!
# The case of request header names

Two requests that differ only in the case of their header names, followed by the same bytes.
`recased_head_iff` is the condition under which the parser reads them alike and the proxy
decides alike about its cache.
-/

namespace LowKeyWebServer

open Std

/-! ## Heads -/

/-- The head of a request: all of it but the body. -/
structure RequestHead : Type where
  method : Bytes
  uri : Bytes
  major : Bytes
  minor : Bytes
  headers : List HeaderText
  method_ne : method ≠ []
  method_token : ∀ b ∈ method, TokenByte b
  uri_ne : uri ≠ []
  uri_uri : ∀ b ∈ uri, UriByte b
  major_ne : major ≠ []
  major_digit : ∀ b ∈ major, DigitByte b
  minor_ne : minor ≠ []
  minor_digit : ∀ b ∈ minor, DigitByte b

/-- Two headers that are equal except for the case of the name. -/
structure RecasedHeader (h h' : HeaderText) : Prop where
  name : fieldOf h.name = fieldOf h'.name
  value : h.value = h'.value
  conts : h.conts = h'.conts

/-- The value of the first header spelled exactly `Cache-Control`. -/
def cacheDirs (headers : List HeaderText) : Bytes :=
  (firstValue (headers.map HeaderText.entry) (str "Cache-Control")).getD []

namespace RequestHead

/-- The text of a head, up to the empty line. -/
def render (h : RequestHead) : Bytes :=
  h.method ++ str " " ++ h.uri ++ str " " ++ (str "HTTP/" ++ h.major ++ str "." ++ h.minor) ++ crlf ++
    h.headers.flatMap HeaderText.render ++ crlf

/-- The request with a body of the declared length. -/
def withBody (h : RequestHead) (body : Bytes) (hbody : body.length = contentLength h.headers) :
    RequestText where
  method := h.method
  uri := h.uri
  major := h.major
  minor := h.minor
  headers := h.headers
  body := body
  method_ne := h.method_ne
  method_token := h.method_token
  uri_ne := h.uri_ne
  uri_uri := h.uri_uri
  major_ne := h.major_ne
  major_digit := h.major_digit
  minor_ne := h.minor_ne
  minor_digit := h.minor_digit
  body_length := hbody

/-- Two heads that are equal except for the case of the header names. -/
structure Recased (h h' : RequestHead) : Prop where
  method : h.method = h'.method
  uri : h.uri = h'.uri
  major : h.major = h'.major
  minor : h.minor = h'.minor
  headers : List.Forall₂ RecasedHeader h.headers h'.headers

theorem length_headers {hds hds' : List HeaderText} (h : List.Forall₂ RecasedHeader hds hds') :
    (hds.flatMap HeaderText.render).length = (hds'.flatMap HeaderText.render).length := by
  induction h with
  | nil => rfl
  | @cons hd hd' _ _ hsame _ ih =>
    have hname : hd.name.length = hd'.name.length := by
      have hlength := congrArg List.length hsame.name
      rwa [fieldOf, fieldOf, List.length_map, List.length_map] at hlength
    rw [List.flatMap_cons, List.flatMap_cons, List.length_append, List.length_append, ih,
      HeaderText.render, HeaderText.render, hsame.value, hsame.conts]
    simp [hname]

theorem length_render {h h' : RequestHead} (hsame : Recased h h') :
    h.render.length = h'.render.length := by
  rw [render, render, hsame.method, hsame.uri, hsame.major, hsame.minor]
  simp only [List.length_append, length_headers hsame.headers]

theorem render_withBody (h : RequestHead) {body : Bytes}
    (hbody : body.length = contentLength h.headers) :
    (h.withBody body hbody).render = h.render ++ body := rfl

/-! ### Parsing a head -/

variable {p : RequestParser} {rest : Bytes}

/-- When the body is there, it is read. -/
theorem parse_complete (hp : p.Fresh) (req : Request) (h : RequestHead)
    (hle : contentLength h.headers ≤ rest.length) :
    ∃ q, p.parse req (h.render ++ rest) = some ⟨.good, rest.drop (contentLength h.headers), q,
      (h.withBody (rest.take (contentLength h.headers)) (List.length_take_of_le hle)).toRequest⟩ := by
  obtain ⟨q, hq, hreq⟩ := RequestParser.accepts_complete p.remaining
    (h.withBody (rest.take (contentLength h.headers)) (List.length_take_of_le hle))
    (rest.drop (contentLength h.headers))
  rw [render_withBody, List.append_assoc, List.take_append_drop, ← hp] at hq
  exact ⟨q.reset, by rw [RequestParser.parse_of_accepts hq, hreq]⟩

/-- Otherwise the rest of it is waited for. -/
theorem parse_incomplete (hp : p.Fresh) (req : Request) (h : RequestHead)
    (hlt : rest.length < contentLength h.headers) :
    ∃ q, p.parse req (h.render ++ rest) = some ⟨.undefined, [], q, req⟩ := by
  obtain ⟨k, hk⟩ := Nat.exists_eq_add_of_lt hlt
  -- the run is the beginning of one that reads a whole body
  have hbody : (rest ++ (List.replicate k 0 ++ [0])).length = contentLength h.headers := by
    rw [hk, List.length_append, List.length_append, List.length_replicate, List.length_singleton,
      Nat.add_assoc]
  obtain ⟨q, hq, -⟩ := RequestParser.accepts_complete p.remaining (h.withBody _ hbody) []
  rw [render_withBody, List.append_nil, ← hp] at hq
  obtain ⟨u, a, hu, s, hpending, -⟩ := Reader.exists_of_decided hq
  rw [← List.append_assoc rest, ← List.append_assoc h.render, ← List.append_assoc h.render] at hu
  rw [← (List.append_inj' hu rfl).1] at hpending
  obtain ⟨s', hs'⟩ := Reader.pending_of_append hpending
  exact ⟨s', by rw [RequestParser.parse, hs']⟩

theorem getD_headers (h : RequestHead) {body : Bytes} (hbody : body.length = contentLength h.headers) :
    (h.withBody body hbody).toRequest.headers.getD (str "Cache-Control") [] = cacheDirs h.headers := by
  rw [TreeMap.getD_eq_getD_getElem?, cacheDirs]
  congr 1
  exact getElem?_addAll_empty (h.headers.map HeaderText.entry) (str "Cache-Control")

/-! ## Two requests -/

/-- Two calls of `parse` that end alike: with the same result after the same number of bytes,
the same body, and requests for which the proxy decides alike. -/
structure SameRun (s s' : Bytes) (out out' : RequestParser.ParseOutcome) : Prop where
  result : out.result = out'.result
  read : s.length - out.rest.length = s'.length - out'.rest.length
  body : out.request.body = out'.request.body
  use : ∀ cache clock, headersUse out.request.headers cache out.request.uri clock =
    headersUse out'.request.headers cache out'.request.uri clock

/-- The declared length and the rule for the cache, each from a header with the exact spelling,
are the same; or neither body is there. -/
def ReadAlike (h h' : RequestHead) (rest : Bytes) : Prop :=
  (rest.length < contentLength h.headers ∧ rest.length < contentLength h'.headers) ∨
    (contentLength h.headers = contentLength h'.headers ∧
      cacheRule (cacheDirs h.headers) = cacheRule (cacheDirs h'.headers))

instance (h h' : RequestHead) (rest : Bytes) : Decidable (ReadAlike h h' rest) := by
  unfold ReadAlike
  infer_instance

variable {p' : RequestParser} {h h' : RequestHead}

/-- The headers and the URI of requests that were read, as far as the proxy is concerned. -/
theorem use_iff (hsame : Recased h h') {body body' : Bytes} (hbody : body.length = contentLength h.headers)
    (hbody' : body'.length = contentLength h'.headers) :
    (∀ cache clock, headersUse (h.withBody body hbody).toRequest.headers cache h.uri clock =
      headersUse (h'.withBody body' hbody').toRequest.headers cache h'.uri clock) ↔
      cacheRule (cacheDirs h.headers) = cacheRule (cacheDirs h'.headers) := by
  rw [← getD_headers h hbody, ← getD_headers h' hbody', hsame.uri]
  exact headersUse_iff _ _ _

/-- Two calls of `parse`, once their outcomes are known. -/
theorem exists_sameRun_iff {s s' : Bytes} {req : Request} {o o' : RequestParser.ParseOutcome}
    (ho : p.parse req s = some o) (ho' : p'.parse req s' = some o') :
    (∃ out out', p.parse req s = some out ∧ p'.parse req s' = some out' ∧ SameRun s s' out out') ↔
      SameRun s s' o o' := by
  refine ⟨?_, fun hrun => ⟨o, o', ho, ho', hrun⟩⟩
  rintro ⟨out, out', hout, hout', hrun⟩
  obtain rfl := Option.some.inj (ho.symm.trans hout)
  obtain rfl := Option.some.inj (ho'.symm.trans hout')
  exact hrun

/-- **Recased requests**: when the case of the header names makes no difference. -/
theorem recased_head_iff (hp : p.Fresh) (hp' : p'.Fresh) (req : Request) (hsame : Recased h h')
    (rest : Bytes) :
    (∃ out out', p.parse req (h.render ++ rest) = some out ∧
        p'.parse req (h'.render ++ rest) = some out' ∧
        SameRun (h.render ++ rest) (h'.render ++ rest) out out') ↔ ReadAlike h h' rest := by
  have hlength : (h.render ++ rest).length = (h'.render ++ rest).length := by
    rw [List.length_append, List.length_append, length_render hsame]
  rw [ReadAlike]
  by_cases hlt : rest.length < contentLength h.headers
  · obtain ⟨q, hq⟩ := parse_incomplete hp req h hlt
    by_cases hlt' : rest.length < contentLength h'.headers
    · -- both wait: nothing has been written to the `Request`
      obtain ⟨q', hq'⟩ := parse_incomplete hp' req h' hlt'
      rw [exists_sameRun_iff hq hq']
      exact iff_of_true ⟨rfl, by rw [hlength], rfl, fun cache clock => rfl⟩ (Or.inl ⟨hlt, hlt'⟩)
    · obtain ⟨q', hq'⟩ := parse_complete hp' req h' (Nat.not_lt.mp hlt')
      rw [exists_sameRun_iff hq hq']
      refine iff_of_false (fun hrun => by cases hrun.result) ?_
      rintro (⟨-, hboth⟩ | ⟨heq, -⟩)
      · exact hlt' hboth
      · exact hlt' (heq ▸ hlt)
  · obtain ⟨q, hq⟩ := parse_complete hp req h (Nat.not_lt.mp hlt)
    by_cases hlt' : rest.length < contentLength h'.headers
    · obtain ⟨q', hq'⟩ := parse_incomplete hp' req h' hlt'
      rw [exists_sameRun_iff hq hq']
      refine iff_of_false (fun hrun => by cases hrun.result) ?_
      rintro (⟨hboth, -⟩ | ⟨heq, -⟩)
      · exact hlt hboth
      · exact hlt (heq.symm ▸ hlt')
    · obtain ⟨q', hq'⟩ := parse_complete hp' req h' (Nat.not_lt.mp hlt')
      rw [exists_sameRun_iff hq hq']
      constructor
      · intro hrun
        -- the bytes behind the body tell where it ends
        have hread := hrun.read
        simp only [hlength, List.length_append, List.length_drop] at hread
        exact Or.inr ⟨by omega, (use_iff hsame _ _).mp hrun.use⟩
      · rintro (⟨hboth, -⟩ | ⟨heq, hrule⟩)
        · exact absurd hboth hlt
        · refine ⟨rfl, ?_, ?_, (use_iff hsame _ _).mpr hrule⟩
          · dsimp only
            rw [hlength, heq]
          · change rest.take _ = rest.take _
            rw [heq]

/-- A head with one header, which declares a body of two bytes if it has the right name. -/
def sizeHead (name : Bytes) (hname : name ≠ [] ∧ (name.all fun b => decide (TokenByte b)) = true) :
    RequestHead where
  method := str "POST"
  uri := str "/a"
  major := str "1"
  minor := str "1"
  headers := [⟨name, str "2", [], hname.1, forall_mem_of_all hname.2, forall_mem_of_all (by decide)⟩]
  method_ne := by decide
  method_token := forall_mem_of_all (by decide)
  uri_ne := by decide
  uri_uri := forall_mem_of_all (by decide)
  major_ne := by decide
  major_digit := forall_mem_of_all (by decide)
  minor_ne := by decide
  minor_digit := forall_mem_of_all (by decide)

theorem recased_sizeHead {name name' : Bytes}
    (hname : name ≠ [] ∧ (name.all fun b => decide (TokenByte b)) = true)
    (hname' : name' ≠ [] ∧ (name'.all fun b => decide (TokenByte b)) = true) (hcase : fieldOf name = fieldOf name') :
    Recased (sizeHead name hname) (sizeHead name' hname') :=
  ⟨rfl, rfl, rfl, rfl, .cons ⟨hcase, rfl, rfl⟩ .nil⟩

/-- The theorem at a header that neither the parser nor the proxy looks for. -/
theorem recased_head_other :
    ∃ out out', (RequestParser.init 0).parse .cleared ((sizeHead (str "X") (by decide)).render ++ str "hi") =
        some out ∧
      (RequestParser.init 0).parse .cleared ((sizeHead (str "x") (by decide)).render ++ str "hi") =
        some out' ∧
      SameRun ((sizeHead (str "X") (by decide)).render ++ str "hi")
        ((sizeHead (str "x") (by decide)).render ++ str "hi") out out' := by
  have hsame : Recased (sizeHead (str "X") (by decide)) (sizeHead (str "x") (by decide)) :=
    recased_sizeHead _ _ (by decide)
  exact (recased_head_iff (RequestParser.fresh_init 0) (RequestParser.fresh_init 0) .cleared hsame _).mpr
    (Or.inr ⟨rfl, rfl⟩)

/-- The bytes of the body are not read when its length is declared in lower case. -/
theorem recased_head_length :
    ¬ ∀ (p p' : RequestParser) (req : Request) (h h' : RequestHead) (rest : Bytes),
      p.Fresh → p'.Fresh → Recased h h' →
      ∃ out out', p.parse req (h.render ++ rest) = some out ∧
        p'.parse req (h'.render ++ rest) = some out' ∧
        SameRun (h.render ++ rest) (h'.render ++ rest) out out' := by
  intro hall
  have hfresh := RequestParser.fresh_init 0
  obtain ⟨h, hh⟩ : ∃ h, sizeHead (str "Content-Length") (by decide) = h := ⟨_, rfl⟩
  obtain ⟨h', hh'⟩ : ∃ h, sizeHead (str "content-length") (by decide) = h := ⟨_, rfl⟩
  have hsize : contentLength h.headers = 2 := by rw [← hh]; decide
  have hsize' : contentLength h'.headers = 0 := by rw [← hh']; decide
  have hsame : Recased h h' := by
    rw [← hh, ← hh']
    exact recased_sizeHead _ _ (by decide)
  have hruns := hall _ _ .cleared h h' (str "hi") hfresh hfresh hsame
  have hle : contentLength h.headers ≤ (str "hi").length := by rw [hsize]; decide
  have hle' : contentLength h'.headers ≤ (str "hi").length := by rw [hsize']; decide
  obtain ⟨q, hq⟩ := parse_complete hfresh .cleared h hle
  obtain ⟨q', hq'⟩ := parse_complete hfresh .cleared h' hle'
  rw [exists_sameRun_iff hq hq'] at hruns
  -- the first request has the two bytes for its body, the second has none
  have hbody : (str "hi").take (contentLength h.headers) = (str "hi").take (contentLength h'.headers) :=
    hruns.body
  rw [hsize, hsize'] at hbody
  cases hbody

end RequestHead

end LowKeyWebServer
