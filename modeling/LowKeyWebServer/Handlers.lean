import LowKeyWebServer.CacheDirectives
import LowKeyWebServer.Server
import LowKeyWebServer.Lib.Trace

/-!
# The handlers' responses and records

`handleRequest` of the seven handlers, with what it adds to `StatusHandler::status`, and a
server that handles one request after the other. `Site.visit_eq_some` says what one request can do.
-/

namespace LowKeyWebServer

/-! ## The request history -/

namespace StatusHandler

/-- `StatusHandler::statusToStr`. -/
def statusToStr (code : Int) : Bytes :=
  if code = Response.ok then str "200"
  else if code = Response.notFound then str "404"
  else if code = Response.badRequest then str "400"
  else []

/-- A record's text, with the text of its status code. -/
def recordText (uri handlerName code : Bytes) : Bytes :=
  str "URI: " ++ uri ++ str "\n" ++
  (if handlerName = [] then str "Handler: None\n" else str "Handler: " ++ handlerName ++ str "\n") ++
  (str "Status Code: " ++ code ++ str "\n\n")

/-- `StatusHandler::addRecord`: the record that is added. -/
def addRecord (uri handlerName : Bytes) (code : Int) : Bytes :=
  recordText uri handlerName (statusToStr code)

/-- `StatusHandler::getAllStatus`. -/
def getAllStatus (status : List Bytes) : Bytes :=
  str "Total Requests: " ++ str (toString status.length) ++ str "\n\n" ++ status.flatten

end StatusHandler

open StatusHandler

/-! ## Plain text -/

/-- `Utils::plain_text_response`. -/
def plainTextResponse (text : Bytes) (code : Int) : Response where
  body := text
  code := code
  headers := (((∅ : StringMap Bytes).insert (str "Content-type") (str "text/plain")).insert
    (str "Content-length") (str (toString text.length))).insert (str "Connection") (str "close")
  srcType := 0

/-- `EchoHandler::getEchoBody`: what comes after the last slash. -/
def getEchoBody (uri : Bytes) : Bytes :=
  match findLastOf '/' uri with
  | some i => uri.drop (i + 1)
  | none => uri

/-- `getEchoBody` as it is written, with the position behind the slash in an `int`. -/
def runGetEchoBody (uri : Bytes) : Option Bytes :=
  (substr uri (unsignedSize (behindLastInt '/' uri))).map (List.take uri.length)

/-- They are the same below 2 GiB. -/
theorem runGetEchoBody_of_short {uri : Bytes} (h : uri.length < 2 ^ 31) :
    runGetEchoBody uri = some (getEchoBody uri) := by
  rw [runGetEchoBody, getEchoBody]
  rcases hpos : findLastOf '/' uri with - | i
  · have hwhole : substr uri (unsignedSize 0) = some uri := if_pos (Nat.zero_le _)
    rw [behindLastInt_none hpos, hwhole, Option.map_some, List.take_length]
  · have hlt := findLastOf_lt hpos
    have hsize : unsignedSize ((i : Int) + 1) = i + 1 := unsignedSize_nat (n := i + 1) (by omega)
    have hrest : substr uri (i + 1) = some (uri.drop (i + 1)) := if_pos hlt
    rw [behindLastInt_some hpos (by omega), hsize, hrest, Option.map_some,
      List.take_of_length_le (List.drop_suffix _ _).length_le]

/-! ## Records of the static and the proxy handler -/

/-- The path that the static handler writes into its record: the URI where it opens no file,
the path of the file where it does. -/
def StaticFileHandler.recordedUri (locationToRoot : LocationToRoot) (uri : Bytes) : Bytes :=
  let srcType := configParser uri
  if srcType = 2 ∨ srcType = 3 ∨ srcType = 4 then replacePath locationToRoot uri
  else if srcType = -1 then uri
  else
    let filePath := replacePath locationToRoot uri
    if filePath = [] then uri else filePath

/-- The six types. -/
theorem StaticFileHandler.configParser_mem (uri : Bytes) : configParser uri ∈ [-1, 0, 1, 2, 3, 4] := by
  rw [configParser]
  repeat' split
  all_goals decide

/-- The records that `ProxyHandler::handleRequest` adds, by how it answers. -/
def ProxyHandler.records (uri : Bytes) : Answer → List Bytes
  | .useCache _ => [addRecord uri (str "ProxyHandler") Response.notModified]
  | .noCache => []
  | .fetched res => [addRecord uri (str "ProxyHandler") res.code]

/-! ## Handling a request -/

/-- What the handlers keep from one request to the next. -/
structure History : Type where
  /-- `StatusHandler::status` -/
  status : List Bytes
  /-- `ProxyHandler::cached_pages` -/
  cache : Cache

/-- A request, with what its handler reads from outside. -/
structure Visit : Type where
  /-- the request -/
  request : Request
  /-- the files -/
  fs : FileSystem
  /-- the readings of `time(0)` -/
  clock : Clock
  /-- what curl comes back with -/
  upstream : Bytes → Upstream

namespace Handler

/-- A handler that answers with a text of its own. -/
def plain (handlerName : Bytes) (code : Int) (text : List Bytes → Bytes) (s : History) (v : Visit) :
    Option (Response × History) :=
  let status := s.status ++ [addRecord v.request.uri handlerName code]
  some (plainTextResponse (text status) code, { s with status })

/-- `ProxyHandler::handleRequest`, with its records. -/
def proxied (p : ProxyHandler) (s : History) (v : Visit) : Option (Response × History) :=
  (p.handleRequest s.cache v.clock v.upstream v.request).map fun out =>
    (out.1.response, ⟨s.status ++ ProxyHandler.records v.request.uri out.1, out.2⟩)

/-- `handleRequest` of a handler. The cache handler has a proxy handler without addresses. -/
def handleRequest (locationToRoot : StaticFileHandler.LocationToRoot) (s : History) (v : Visit) :
    Handler → Option (Response × History)
  | .static =>
    (StaticFileHandler.handleRequest locationToRoot v.fs v.request).map fun res =>
      (res, { s with status := s.status ++ [addRecord
        (StaticFileHandler.recordedUri locationToRoot v.request.uri) (str "StaticHandler") res.code] })
  | .echo => plain (str "EchoHandler") Response.ok (fun _ => getEchoBody v.request.uri) s v
  | .status => plain (str "StatusHandler") Response.ok getAllStatus s v
  | .error =>
    plain (str "ErrorHandler") Response.notFound
      (fun _ => str "No Content Found! Check request format!") s v
  | .health => plain (str "HealthHandler") Response.ok (fun _ => str "OK") s v
  | .proxy p => proxied p s v
  | .cache => proxied ⟨[], []⟩ s v

end Handler

/-! ## A server and its history -/

/-- A server while it handles requests. -/
structure Site : Type where
  /-- its handlers, and the static handler's roots -/
  server : Server
  /-- what the handlers keep -/
  history : History

namespace Site

/-- A server before its first request. -/
def new (server : Server) : Site := ⟨server, ⟨[], ∅⟩⟩

/-- The handler whose `handleRequest` is called; none for a null pointer. -/
def handlerOf : Server.Callee → Option Handler
  | .handler h => some h
  | .errorHandler => some .error
  | .null => none

/-- The routing of `good_request` and `handler_task`, and the handler it calls. -/
def visit (s : Site) (v : Visit) : Option (Response × Site) :=
  let (callee, server) := s.server.goodRequest v.request.uri
  (handlerOf callee).bind fun h =>
    (h.handleRequest server.locationToRoot s.history v).map fun out => (out.1, ⟨server, out.2⟩)

/-- One request. -/
def step (s : Site) (v : Visit) : Option Site := (s.visit v).map Prod.snd

/-- The handler that a request is handed to. -/
def callee (s : Site) (v : Visit) : Option Handler := handlerOf (s.server.goodRequest v.request.uri).1

theorem handlerTask_locationToRoot (s : Server) (found : Bool) (location : Bytes) :
    (s.handlerTask found location).2.locationToRoot = s.locationToRoot := by
  unfold Server.handlerTask Server.index
  repeat' split
  all_goals
    next heq => exact (congrArg (fun out : Option Handler × Server => out.2.locationToRoot) heq).symm

theorem visit_eq (s : Site) (v : Visit) :
    s.visit v = (s.callee v).bind fun h =>
      (h.handleRequest s.server.locationToRoot s.history v).map fun out =>
        (out.1, ⟨(s.server.goodRequest v.request.uri).2, out.2⟩) := by
  have hroots : (s.server.goodRequest v.request.uri).2.locationToRoot = s.server.locationToRoot :=
    handlerTask_locationToRoot _ _ _
  rw [← hroots]
  rfl

/-- **What one request can do**: its handler answers it, and the roots stay. -/
theorem visit_eq_some {s s' : Site} {v : Visit} {res : Response} (h : s.visit v = some (res, s')) :
    ∃ handler, s.callee v = some handler ∧
      handler.handleRequest s.server.locationToRoot s.history v = some (res, s'.history) ∧
      s'.server.locationToRoot = s.server.locationToRoot := by
  rw [visit_eq] at h
  obtain ⟨handler, hcallee, hout⟩ := Option.bind_eq_some_iff.mp h
  obtain ⟨⟨res', history'⟩, hreq, heq⟩ := Option.map_eq_some_iff.mp hout
  obtain ⟨rfl, rfl⟩ := Prod.mk.inj heq
  exact ⟨handler, hcallee, hreq, handlerTask_locationToRoot _ _ _⟩

/-- What holds of the response to a request, by the handler that makes it. -/
theorem forall_visit_iff {s : Site} {v : Visit} {P : Response → History → Prop} {Q : Handler → Prop}
    (hhandler : ∀ h res history',
      h.handleRequest s.server.locationToRoot s.history v = some (res, history') →
      (P res history' ↔ Q h)) :
    (∀ res s', s.visit v = some (res, s') → P res s'.history) ↔
      ((s.visit v).isSome = true → ∀ h, s.callee v = some h → Q h) := by
  refine ⟨fun hall hsome h hcallee => ?_, fun hall res s' hvisit => ?_⟩
  · obtain ⟨⟨res, s'⟩, hvisit⟩ := Option.isSome_iff_exists.mp hsome
    obtain ⟨h', hcallee', hreq, -⟩ := visit_eq_some hvisit
    obtain rfl := Option.some.inj (hcallee.symm.trans hcallee')
    exact (hhandler h res _ hreq).mp (hall res s' hvisit)
  · obtain ⟨h, hcallee, hreq, -⟩ := visit_eq_some hvisit
    have hsome : (s.visit v).isSome = true := by rw [hvisit, Option.isSome_some]
    exact (hhandler h res _ hreq).mpr (hall hsome h hcallee)

end Site

/-! ## How the proxy answers -/

namespace ProxyHandler

variable {p : ProxyHandler} {s : History} {v : Visit}

/-- A page for the request is in the cache, and it is not refused. -/
def UsesCache (s : History) (v : Visit) : Prop :=
  ∃ hdrs page, parseCacheHdrs v.request.headers = some hdrs ∧
    s.cache[v.request.uri]? = some page ∧ ¬ Refuses hdrs page v.clock

/-- The request only wants a cached page, and there is none. -/
def LacksCache (s : History) (v : Visit) : Prop :=
  ∃ hdrs, parseCacheHdrs v.request.headers = some hdrs ∧ directive hdrs (str "no-cache") = 0 ∧
    directive hdrs (str "only-if-cached") ≠ 0 ∧ s.cache[v.request.uri]? = none

/-- **How the proxy answers**: which of the three ways depends on the cache and the directives. -/
theorem answer_cases {answer : Answer} {cache' : Cache}
    (hreq : p.handleRequest s.cache v.clock v.upstream v.request = some (answer, cache')) :
    (UsesCache s v ∧ ¬ LacksCache s v ∧
      ∃ page, answer = .useCache page ∧ s.cache[v.request.uri]? = some page) ∨
    (¬ UsesCache s v ∧ LacksCache s v ∧ answer = .noCache) ∨
    (¬ UsesCache s v ∧ ¬ LacksCache s v ∧
      ∃ res, answer = .fetched res ∧ p.fetch v.request.uri v.upstream = some res) := by
  obtain ⟨hdrs, hhdrs⟩ := exists_hdrs hreq
  have huses : UsesCache s v →
      ∃ page, answer = .useCache page ∧ s.cache[v.request.uri]? = some page := by
    rintro ⟨hdrs', page, hhdrs', hpage, huse⟩
    rw [handleRequest_use hhdrs' hpage huse] at hreq
    exact ⟨page, (congrArg Prod.fst (Option.some.inj hreq)).symm, hpage⟩
  have hlacks : LacksCache s v → answer = .noCache := by
    rintro ⟨hdrs', hhdrs', hno, honly, hpage⟩
    rw [handleRequest_only hhdrs' honly hno hpage] at hreq
    exact (congrArg Prod.fst (Option.some.inj hreq)).symm
  rcases handleRequest_cases hhdrs hreq with ⟨page, rfl, hpage, huse, -⟩ | ⟨rfl, -⟩ | ⟨res, rfl, hres, -⟩
  · refine Or.inl ⟨⟨hdrs, page, hhdrs, hpage, huse⟩, fun hl => ?_, page, rfl, hpage⟩
    cases hlacks hl
  · refine Or.inr (Or.inl ⟨fun hu => ?_, ⟨hdrs, hhdrs, noCache_inv hhdrs hreq⟩, rfl⟩)
    obtain ⟨page, heq, -⟩ := huses hu
    cases heq
  · refine Or.inr (Or.inr ⟨fun hu => ?_, fun hl => ?_, res, rfl, hres⟩)
    · obtain ⟨page, heq, -⟩ := huses hu
      cases heq
    · cases hlacks hl

/-- The upstream replies, with a code and header lines of the given kind. -/
def Replies (p : ProxyHandler) (v : Visit) (kind : Int → List Bytes → Prop) : Prop :=
  ∃ dest code lines msg, p.destination v.request.uri = some dest ∧
    v.upstream dest = .reply code lines msg ∧ kind code lines

/-- The headers of a fetched response, from those of the reply. -/
def fetchedHeaders (headerData : StringMap Bytes) (size : Nat) : StringMap Bytes :=
  ((headerData.insert (str "Content-Length") (str (toString size))).insert (str "Connection")
    (str "close")).erase (str "Transfer-Encoding")

/-- A fetched response is made from the reply, or reports that there is none. -/
theorem fetch_cases {uri : Bytes} {upstream : Bytes → Upstream} {res : Response}
    (hres : p.fetch uri upstream = some res) :
    ∃ dest, p.destination uri = some dest ∧
      ((∃ lines msg headerData, upstream dest = .reply res.code lines msg ∧
          lines.foldlM headerCallback ∅ = some headerData ∧
          res.headers = fetchedHeaders headerData res.body.length) ∨
        ((∀ code lines msg, upstream dest ≠ .reply code lines msg) ∧
          res.code = Response.internalServerError ∧ res.headers = ∅)) := by
  rw [fetch] at hres
  split at hres
  · cases hres
  · next dest hdest =>
    refine ⟨dest, hdest, ?_⟩
    split at hres
    · next code lines msg hreply =>
      split at hres
      · cases hres
      · next headerData hdata =>
        obtain ⟨edited, -, rfl⟩ := Option.map_eq_some_iff.mp hres
        exact Or.inl ⟨lines, msg, headerData, hreply, hdata, rfl⟩
    · next hno =>
      obtain rfl := Option.some.inj hres
      exact Or.inr ⟨hno, rfl, rfl⟩

end ProxyHandler

/-! ## Pages in the cache -/

/-- Every page in the cache was made from a response of this kind. -/
def History.PagesAre (kind : Response → Prop) (s : History) : Prop :=
  ∀ (u : Bytes) (page : CachedPage), s.cache[u]? = some page → kind page.response

namespace Handler

variable {kind : Response → Prop} {locationToRoot : StaticFileHandler.LocationToRoot}
  {s s' : History} {v : Visit} {res : Response}

theorem pagesAre_proxied {p : ProxyHandler} (hs : s.PagesAre kind)
    (hres : res.code = Response.ok → kind res) (h : proxied p s v = some (res, s')) :
    s'.PagesAre kind := by
  obtain ⟨⟨answer, cache'⟩, hreq, heq⟩ := Option.map_eq_some_iff.mp h
  obtain ⟨rfl, rfl⟩ := Prod.mk.inj heq
  intro u page hpage
  rcases ProxyHandler.getElem?_after hreq hpage with hold | ⟨res, rfl, hcode, rfl⟩
  · exact hs u page hold
  · exact hres hcode

theorem pagesAre_plain {handlerName : Bytes} {code : Int} {text : List Bytes → Bytes}
    (hs : s.PagesAre kind) (h : plain handlerName code text s v = some (res, s')) :
    s'.PagesAre kind := by
  obtain ⟨-, rfl⟩ := Prod.mk.inj (Option.some.inj h)
  exact hs

/-- Only a response with code 200 can become a page. -/
theorem pagesAre_handleRequest {h : Handler} (hs : s.PagesAre kind)
    (hres : res.code = Response.ok → kind res)
    (hreq : h.handleRequest locationToRoot s v = some (res, s')) : s'.PagesAre kind := by
  cases h with
  | static =>
    obtain ⟨res', -, heq⟩ := Option.map_eq_some_iff.mp hreq
    obtain ⟨-, rfl⟩ := Prod.mk.inj heq
    exact hs
  | proxy p => exact pagesAre_proxied hs hres hreq
  | cache => exact pagesAre_proxied hs hres hreq
  | echo | status | error | health =>
    rw [handleRequest] at hreq
    exact pagesAre_plain hs hreq

end Handler

namespace Site

theorem pagesAre_new (kind : Response → Prop) (server : Server) :
    (new server).history.PagesAre kind := by
  intro u page h
  simp [new] at h

/-- One request keeps the kind of the pages, if its response is of the kind. -/
theorem pagesAre_step {kind : Response → Prop} {s s' : Site} {v : Visit}
    (hs : s.history.PagesAre kind)
    (hres : ∀ res s', s.visit v = some (res, s') → res.code = Response.ok → kind res)
    (hstep : step s v = some s') : s'.history.PagesAre kind := by
  obtain ⟨⟨res, s''⟩, hvisit, rfl⟩ := Option.map_eq_some_iff.mp hstep
  obtain ⟨h, -, hreq, -⟩ := visit_eq_some hvisit
  exact Handler.pagesAre_handleRequest hs (hres res s'' hvisit) hreq

/-- A kind that every response with code 200 has is the kind of the pages all along a run. -/
theorem pagesAre_trace {kind : Response → Prop}
    (hkind : ∀ (s : Site) v res s', s.history.PagesAre kind → s.visit v = some (res, s') →
      res.code = Response.ok → kind res) (server : Server) (visits : List Visit) :
    ∀ e ∈ Machine.trace step (new server) visits, e.1.history.PagesAre kind := by
  have hstep : ∀ (s : Site) v s', s.history.PagesAre kind → True → step s v = some s' →
      s'.history.PagesAre kind := fun s v s' hs _ hstep =>
    pagesAre_step hs (fun res s' hvisit => hkind s v res s' hs hvisit) hstep
  exact Machine.forall_trace (fun _ => True) hstep (pagesAre_new kind server) fun _ _ => trivial

end Site

end LowKeyWebServer
