import LowKeyWebServer.HtmlRewriting
import LowKeyWebServer.RequestHistory
import LowKeyWebServer.UpstreamHeaders

/-!
# The dispatcher

`dispatcher.cc`: the bytes that a response becomes. `status_run` is the condition on the
requests of a run under which the status line carries the code of the response, and a reply that is
not HTML arrives with the body of the upstream.
-/

namespace LowKeyWebServer

open Std

namespace Utils

/-- `Utils::format_header`. -/
def formatHeader (key value : Bytes) : Bytes := key ++ str ": " ++ value ++ str "\r\n"

/-- `Utils::format_end`. -/
def formatEnd : Bytes := str "\r\n"

end Utils

namespace Dispatcher

/-- `dispatcher::ToString`: the status line of a code. -/
def toString (status : Int) : Bytes :=
  match status with
  | 200 => str "HTTP/1.1 200 OK\r\n"
  | 201 => str "HTTP/1.1 201 Created\r\n"
  | 202 => str "HTTP/1.1 202 Accepted\r\n"
  | 204 => str "HTTP/1.1 204 No Content\r\n"
  | 301 => str "HTTP/1.1 301 Moved Permanently\r\n"
  | 302 => str "HTTP/1.1 302 Moved Temporarily\r\n"
  | 304 => str "HTTP/1.1 304 Not Modified\r\n"
  | 400 => str "HTTP/1.1 400 Bad Request\r\n"
  | 401 => str "HTTP/1.1 401 Unauthorized\r\n"
  | 403 => str "HTTP/1.1 403 Forbidden\r\n"
  | 404 => str "HTTP/1.1 404 Not Found\r\n"
  | 500 => str "HTTP/1.1 500 Internal Server Error\r\n"
  | 501 => str "HTTP/1.1 501 Not Implemented\r\n"
  | 502 => str "HTTP/1.1 502 Bad Gateway\r\n"
  | 503 => str "HTTP/1.1 503 Service Unavailable\r\n"
  | _ => str "HTTP/1.1 500 Internal Server Error\r\n"

/-- A write to the client's socket. -/
inductive Write : Type where
  /-- `session_->send_response(response)`, which is `async_write` -/
  | sendResponse (response : Bytes)
  /-- the loop of `write_some` over the body -/
  | writeSome (content : Bytes)
  deriving DecidableEq

/-- The bytes of a write. -/
def Write.bytes : Write → Bytes
  | sendResponse response => response
  | writeSome content => content

/-- The head of a response: its status line, its headers, and an empty line. -/
def head (response : Response) : Bytes :=
  toString response.code ++
    response.headers.toList.flatMap (fun header => Utils.formatHeader header.1 header.2) ++
    Utils.formatEnd

/-- `dispatcher::dispatch`. -/
def dispatch (response : Response) : List Write :=
  if response.srcType < 2 then [.sendResponse (head response ++ response.body)]
  else [.sendResponse (head response), .writeSome response.body]

/-- The bytes that a response is sent as, in the order of the writes. -/
def sent (response : Response) : Bytes := (dispatch response).flatMap Write.bytes

theorem sent_eq (response : Response) : sent response = head response ++ response.body := by
  rw [sent, dispatch]
  split <;> simp [Write.bytes]

/-! ## The status line -/

/-- The codes that have a status line of their own. -/
def statusCodes : List Int := [200, 201, 202, 204, 301, 302, 304, 400, 401, 403, 404, 500, 501, 502, 503]

/-- The number in the status line, as a client reads it. -/
def statusNumber (bytes : Bytes) : Option Int :=
  if (str "HTTP/1.1 ").isPrefixOf bytes then stoi (bytes.drop 9) else none

/-- A status line: the version, digits, and a reason. -/
theorem statusNumber_line {digits : Bytes} (hne : digits ≠ [])
    (hdigits : ∀ c ∈ digits, isDigit c = true) (hlt : decimal digits < 1000) (rest : Bytes) :
    statusNumber (str "HTTP/1.1 " ++ (digits ++ (str " " ++ rest))) = some ↑(decimal digits) := by
  have hdrop : (str "HTTP/1.1 " ++ (digits ++ (str " " ++ rest))).drop 9 =
      digits ++ (str " " ++ rest) := rfl
  rw [statusNumber, if_pos (List.isPrefixOf_iff_prefix.mpr (List.prefix_append _ _)), hdrop,
    stoi_eq_some_iff]
  refine ⟨[], .none, digits, str " " ++ rest, rfl, ?_, hne, hdigits, ?_, rfl, ?_, ?_⟩
  · intro c hc
    cases hc
  · intro c hc
    obtain rfl := Option.some.inj hc
    decide
  · omega
  · omega

/-- The fifteen status lines. -/
theorem toString_lines : ∀ code ∈ statusCodes,
    toString code = str "HTTP/1.1 " ++ (((toString code).drop 9).take 3 ++
      (str " " ++ (toString code).drop 13)) ∧
    ((toString code).drop 9).take 3 ≠ [] ∧
    (((toString code).drop 9).take 3).all isDigit = true ∧
    decimal (((toString code).drop 9).take 3) < 1000 ∧
    code = decimal (((toString code).drop 9).take 3) := by
  decide

theorem toString_default {code : Int} (h : code ∉ statusCodes) : toString code = toString 500 := by
  simp only [statusCodes, List.mem_cons, List.not_mem_nil, or_false, not_or] at h
  unfold toString
  split <;> simp at h ⊢

/-- Every status line begins with the version. -/
theorem toString_prefix (code : Int) : ∃ rest, toString code = str "HTTP/1.1 " ++ rest := by
  by_cases hcode : code ∈ statusCodes
  · exact ⟨_, (toString_lines code hcode).1⟩
  · exact ⟨_, (toString_default hcode).trans (toString_lines 500 (by decide)).1⟩

/-- **Which codes reach the client.** -/
theorem statusNumber_sent_iff (response : Response) :
    statusNumber (sent response) = some response.code ↔ response.code ∈ statusCodes := by
  have hline : ∀ code ∈ statusCodes, toString response.code = toString code →
      statusNumber (sent response) = some code := by
    intro code hcode heq
    obtain ⟨htext, hne, hdigits, hlt, hval⟩ := toString_lines code hcode
    rw [sent_eq, head, heq, htext]
    simp only [List.append_assoc]
    rw [statusNumber_line hne (List.all_eq_true.mp hdigits) hlt, ← hval]
  refine ⟨fun h => ?_, fun hcode => hline _ hcode rfl⟩
  by_contra hcode
  rw [hline 500 (by decide) (toString_default hcode)] at h
  exact hcode (Option.some.inj h ▸ by decide)

end Dispatcher

/-! ## Responses of the handlers -/

/-- The invariant: every page in the cache has code 200. -/
def PagesOk (s : History) : Prop := s.PagesAre fun res => res.code = Response.ok

namespace Handler

open Dispatcher

/-- The request does not only ask for a cached page that is missing; and where it goes upstream,
a reply has a code with a status line of its own. -/
def ProxySendsCode (p : ProxyHandler) (s : History) (v : Visit) : Prop :=
  ¬ ProxyHandler.LacksCache s v ∧
    (ProxyHandler.UsesCache s v ∨ ¬ p.Replies v fun code _ => code ∉ statusCodes)

/-- The response's code has a status line of its own. -/
def SendsCode (s : History) (v : Visit) : Handler → Prop
  | .proxy p => ProxySendsCode p s v
  | .cache => ProxySendsCode ⟨[], []⟩ s v
  | _ => True

variable {locationToRoot : StaticFileHandler.LocationToRoot} {s s' : History} {v : Visit}
  {res : Response}

theorem proxied_sendsCode_iff {p : ProxyHandler} (hs : PagesOk s)
    (h : proxied p s v = some (res, s')) :
    statusNumber (sent res) = some res.code ↔ ProxySendsCode p s v := by
  obtain ⟨⟨answer, cache'⟩, hreq, heq⟩ := Option.map_eq_some_iff.mp h
  obtain ⟨rfl, -⟩ := Prod.mk.inj heq
  rw [statusNumber_sent_iff, ProxySendsCode]
  rcases ProxyHandler.answer_cases hreq with ⟨huse, hlacks, page, rfl, hpage⟩ | ⟨-, hlacks, rfl⟩ |
    ⟨hnot, hlacks, res, rfl, hres⟩
  · have hcode : page.response.code = 200 := hs _ _ hpage
    refine iff_of_true ?_ ⟨hlacks, Or.inl huse⟩
    change page.response.code ∈ statusCodes
    rw [hcode]
    decide
  · -- 504 has none
    refine iff_of_false ?_ fun hsends => hsends.1 hlacks
    change Response.gatewayTimeout ∉ statusCodes
    decide
  · simp only [hnot, hlacks, not_false_eq_true, true_and, false_or]
    change res.code ∈ statusCodes ↔ _
    obtain ⟨dest, hdest, ⟨lines, msg, headerData, hreply, -⟩ | ⟨hno, hcode, -⟩⟩ :=
      ProxyHandler.fetch_cases hres
    · constructor
      · rintro hmem ⟨dest', code, lines', msg', hdest', hreply', hcode⟩
        obtain rfl := Option.some.inj (hdest.symm.trans hdest')
        obtain ⟨rfl, -⟩ := Upstream.reply.inj (hreply.symm.trans hreply')
        exact hcode hmem
      · intro hsends
        by_contra hcode
        exact hsends ⟨dest, _, lines, msg, hdest, hreply, hcode⟩
    · rw [hcode]
      refine iff_of_true (by decide) ?_
      rintro ⟨dest', code, lines, msg, hdest', hreply, -⟩
      obtain rfl := Option.some.inj (hdest.symm.trans hdest')
      exact hno _ _ _ hreply

theorem hasText_mem {code : Int} (h : StatusHandler.HasText code) : code ∈ statusCodes := by
  rcases h with rfl | rfl | rfl <;> decide

theorem plain_sendsCode {handlerName : Bytes} {code : Int} {text : List Bytes → Bytes}
    (hcode : code ∈ statusCodes) (h : plain handlerName code text s v = some (res, s')) :
    statusNumber (sent res) = some res.code := by
  obtain ⟨rfl, -⟩ := Prod.mk.inj (Option.some.inj h)
  exact (statusNumber_sent_iff _).mpr hcode

/-- **One handler's code** is the one that the client reads exactly on the right paths. -/
theorem handleRequest_sendsCode_iff {h : Handler} (hs : PagesOk s)
    (hreq : h.handleRequest locationToRoot s v = some (res, s')) :
    statusNumber (sent res) = some res.code ↔ h.SendsCode s v := by
  cases h with
  | static =>
    obtain ⟨res', hres, heq⟩ := Option.map_eq_some_iff.mp hreq
    obtain ⟨rfl, -⟩ := Prod.mk.inj heq
    refine iff_of_true ((statusNumber_sent_iff _).mpr ?_) trivial
    exact hasText_mem (StaticFileHandler.code_handleRequest hres)
  | proxy p => exact proxied_sendsCode_iff hs hreq
  | cache => exact proxied_sendsCode_iff hs hreq
  | echo | status | error | health =>
    rw [handleRequest] at hreq
    exact iff_of_true (plain_sendsCode (by decide) hreq) trivial

end Handler

/-! ## Runs -/

/-- The proxy that a handler asks. -/
def Handler.proxyOf : Handler → Option ProxyHandler
  | .proxy p => some p
  | .cache => some ⟨[], []⟩
  | _ => none

namespace Site

open Dispatcher

/-- The status line that is sent carries the code of the response. -/
def RespondsWithCode (s : Site) (v : Visit) : Prop :=
  ∀ res s', s.visit v = some (res, s') → statusNumber (sent res) = some res.code

/-- The request is answered with the reply of its upstream. -/
structure Fetches (s : Site) (v : Visit) (p : ProxyHandler) (code : Int) (lines : List Bytes)
    (msg : Bytes) : Prop where
  asked : ∃ h, s.callee v = some h ∧ h.proxyOf = some p
  unused : ¬ ProxyHandler.UsesCache s.history v
  wanted : ¬ ProxyHandler.LacksCache s.history v
  reply : ∃ dest, p.destination v.request.uri = some dest ∧ v.upstream dest = .reply code lines msg

/-- A reply that is fetched reaches the client with its own code, and if its Content-Type is not
`text/html`, with its own body. -/
def KeepsBody (s : Site) (v : Visit) : Prop :=
  ∀ p res s' code lines msg, s.visit v = some (res, s') → s.Fetches v p code lines msg →
    res.code = code ∧ (¬ ProxyHandler.IsHtml lines → sent res = head res ++ msg)

/-- A reply that is fetched is HTML, or not taken for HTML, or has nothing in it to be edited, or there
is no location to insert. -/
def SendsBody (s : Site) (v : Visit) : Prop :=
  ∀ p code lines msg, (s.visit v).isSome = true → s.Fetches v p code lines msg →
    ProxyHandler.IsHtml lines ∨ ProxyHandler.rewrites lines = false ∨
      ProxyHandler.dropSlash p.serveAddr = [] ∨ ∀ i, ¬ ProxyHandler.AfterOneQuote msg i

/-- A request that is answered is not on one of the paths to a code without a status line. -/
def SendsCode (s : Site) (v : Visit) : Prop :=
  (s.visit v).isSome = true → ∀ h, s.callee v = some h → h.SendsCode s.history v

theorem respondsWithCode_iff {s : Site} (hs : PagesOk s.history) (v : Visit) :
    RespondsWithCode s v ↔ SendsCode s v :=
  forall_visit_iff fun _ _ _ => Handler.handleRequest_sendsCode_iff hs

/-- What is made of the reply. -/
theorem Fetches.response {s s' : Site} {v : Visit} {p : ProxyHandler} {res : Response} {code : Int}
    {lines : List Bytes} {msg : Bytes} (h : s.Fetches v p code lines msg)
    (hvisit : s.visit v = some (res, s')) : res.code = code ∧
      (if ProxyHandler.rewrites lines = true then p.parseHtmlBody msg else some msg) = some res.body := by
  obtain ⟨handler, hcallee, hproxy⟩ := h.asked
  obtain ⟨handler', hcallee', hreq, -⟩ := visit_eq_some hvisit
  obtain rfl := Option.some.inj (hcallee.symm.trans hcallee')
  have hproxied : Handler.proxied p s.history v = some (res, s'.history) := by
    cases handler with
    | proxy p' =>
      obtain rfl := Option.some.inj hproxy
      exact hreq
    | cache =>
      obtain rfl := Option.some.inj hproxy
      exact hreq
    | static | echo | status | error | health => cases hproxy
  obtain ⟨dest, hdest, hreply⟩ := h.reply
  obtain ⟨⟨answer, cache'⟩, hanswer, heq⟩ := Option.map_eq_some_iff.mp hproxied
  obtain ⟨rfl, -⟩ := Prod.mk.inj heq
  rcases ProxyHandler.answer_cases hanswer with ⟨hu, -⟩ | ⟨-, hl, -⟩ | ⟨-, -, res, rfl, hres⟩
  · exact absurd hu h.unused
  · exact absurd hl h.wanted
  · have hvalues := (ProxyHandler.fetched_reply hdest hreply hanswer).1
    rw [ProxyHandler.fetch_reply hdest hreply hvalues] at hres
    obtain ⟨edited, hedited, rfl⟩ := Option.map_eq_some_iff.mp hres
    exact ⟨rfl, hedited⟩

theorem sent_eq_iff {res : Response} {msg : Bytes} :
    sent res = head res ++ msg ↔ res.body = msg := by
  rw [sent_eq, List.append_cancel_left_eq]

/-- **When a body is kept** that is not HTML. -/
theorem keepsBody_iff (s : Site) (v : Visit) : KeepsBody s v ↔ SendsBody s v := by
  constructor
  · intro hkeeps p code lines msg hsome hfetches
    obtain ⟨⟨res, s'⟩, hvisit⟩ := Option.isSome_iff_exists.mp hsome
    have hbody := (hfetches.response hvisit).2
    by_cases hhtml : ProxyHandler.IsHtml lines
    · exact Or.inl hhtml
    · refine Or.inr ?_
      have hsame := sent_eq_iff.mp ((hkeeps p res s' code lines msg hvisit hfetches).2 hhtml)
      split at hbody
      · exact Or.inr ((ProxyHandler.parseHtmlBody_self_iff hbody).mp hsame)
      · next hrewrites => exact Or.inl (Bool.eq_false_iff.mpr hrewrites)
  · intro hsends p res s' code lines msg hvisit hfetches
    obtain ⟨hcode, hbody⟩ := hfetches.response hvisit
    refine ⟨hcode, fun hhtml => sent_eq_iff.mpr ?_⟩
    have hsome : (s.visit v).isSome = true := by rw [hvisit, Option.isSome_some]
    rcases hsends p code lines msg hsome hfetches with h | hrewrites | hself
    · exact absurd h hhtml
    · rw [hrewrites, if_neg Bool.false_ne_true] at hbody
      exact (Option.some.inj hbody).symm
    · split at hbody
      · exact (ProxyHandler.parseHtmlBody_self_iff hbody).mpr hself
      · exact (Option.some.inj hbody).symm

/-- **When the client sees the handler's status**: in a run of any server, every status line
carries the code of its response, and every body that is not HTML is the upstream's, exactly if no
answered request is on a path to a code without a status line, and no reply that is not HTML is
edited. -/
theorem status_run (server : Server) (visits : List Visit) :
    (∀ e ∈ Machine.trace step (new server) visits, RespondsWithCode e.1 e.2 ∧ KeepsBody e.1 e.2) ↔
      ∀ e ∈ Machine.trace step (new server) visits, SendsCode e.1 e.2 ∧ SendsBody e.1 e.2 := by
  have hpages := pagesAre_trace (fun _ _ _ _ _ _ hcode => hcode) server visits
  refine forall₂_congr fun e he => ?_
  rw [respondsWithCode_iff (hpages e he), keepsBody_iff]

/-- A server with the cache handler at its hardcoded location. -/
def cacheServer : Server where
  handlersTackers := (∅ : StringMap (Option Handler)).insert (str "\"/http\"") (some .cache)
  locationToRoot := ∅

/-- A request that only wants a cached page. -/
def onlyCached : Visit where
  request := ⟨.get, str "http://a/", (∅ : StringMap Bytes).insert (str "Cache-Control")
    (str "only-if-cached"), [], str "HTTP/1.1"⟩
  fs := ⟨[], fun _ => none⟩
  clock := ⟨0, 0, 0, 0⟩
  upstream := fun _ => .failed

/-- It is answered with 504. -/
theorem visit_onlyCached : ∃ s', (new cacheServer).visit onlyCached = some (noCache, s') := by
  have hhdrs : parseCacheHdrs onlyCached.request.headers =
      some ((∅ : StringMap Int).insert (str "only-if-cached") 1) := by
    rw [parseCacheHdrs_eq]
    rfl
  have hreq : ProxyHandler.handleRequest ⟨[], []⟩ ∅ onlyCached.clock onlyCached.upstream
      onlyCached.request = some (.noCache, ∅) :=
    ProxyHandler.handleRequest_only hhdrs (by decide) (by decide) rfl
  have hcallee : (new cacheServer).callee onlyCached = some .cache := by
    rw [callee, Server.goodRequest, Server.findHandler, if_pos (by decide)]
    rfl
  rw [visit_eq, hcallee, Option.bind_some, Handler.handleRequest, Handler.proxied]
  change ∃ s', Option.map _ (Option.map _ (ProxyHandler.handleRequest ⟨[], []⟩ ∅ _ _ _)) = _
  rw [hreq]
  exact ⟨_, rfl⟩

/-- 504 is sent as 500. -/
theorem not_responds_gateway_timeout :
    ¬ ∀ server visits, ∀ e ∈ Machine.trace step (new server) visits,
      RespondsWithCode e.1 e.2 ∧ KeepsBody e.1 e.2 := by
  intro hall
  obtain ⟨s', hvisit⟩ := visit_onlyCached
  have hcode := (hall cacheServer [onlyCached] _ List.mem_cons_self).1 noCache s' hvisit
  rw [statusNumber_sent_iff] at hcode
  exact absurd hcode (by decide)

end Site

end LowKeyWebServer
