import LowKeyWebServer.RequestParser

/-!
# The caching proxy

`cached_page.cc` and `proxy_handler.cc`. The static map `cached_pages` is passed from
call to call, the readings of `time(0)` are a `Clock`, and curl is an arbitrary function
from the destination to what comes back. `none` is an exception, or an index out of
range: the call does not return.
-/

namespace LowKeyWebServer

/-! ## Responses -/

/-- A `Response`. Its code is a number: the proxy casts whatever code it received. -/
structure Response : Type where
  /-- an HTTP code indicating success or failure of processing -/
  code : Int
  /-- a map of headers -/
  headers : StringMap Bytes
  /-- the content of the response -/
  body : Bytes
  /-- used to determine the type of the file -/
  srcType : Int

namespace Response

/-- `Response::ok`. -/
def ok : Int := 200

/-- `Response::not_modified`. -/
def notModified : Int := 304

/-- `Response::bad_request`. -/
def badRequest : Int := 400

/-- `Response::not_found`. -/
def notFound : Int := 404

/-- `Response::internal_server_error`. -/
def internalServerError : Int := 500

/-- `Response::gateway_timeout`. -/
def gatewayTimeout : Int := 504

end Response

/-! ## Cached pages -/

/-- A `cached_page`. -/
structure CachedPage : Type where
  /-- the response -/
  response : Response
  /-- when it was stored -/
  timeStart : Int
  /-- the default age set by the server -/
  maxAge : Int

/-- `const int one_min`. -/
def oneMin : Int := 60

namespace CachedPage

/-- `cached_page::isExpired`, with the reading of `time(0)`. -/
def isExpired (page : CachedPage) (max now : Int) : Bool := now - page.timeStart > max

/-- `cached_page::isFresh`. -/
def isFresh (page : CachedPage) (minFresh now : Int) : Bool := now > page.timeStart + minFresh

/-- `cached_page::couldStale`. -/
def couldStale (page : CachedPage) (maxStale now : Int) : Bool :=
  toInt32 (now - page.timeStart - page.maxAge) < maxStale

end CachedPage

/-! ## Cache-Control directives -/

/-- `boost::trim`. -/
def trim (s : Bytes) : Bytes :=
  ((s.dropWhile isSpace).reverse.dropWhile isSpace).reverse

/-- Whether the string contains the pattern. -/
def contains (pat s : Bytes) : Bool := (find pat s).isSome

/-- One directive: its name, and its value for the three that have one. Only the last
character decides whether a value is taken for a number. The position of the equals sign is in the
range of `int` (`runParseDirective`). -/
def parseDirective (token : Bytes) : Option (Bytes × Int) :=
  if contains (str "max-age") token || contains (str "max-stale") token ||
      contains (str "min-fresh") token then
    let (name, given) :=
      match find (str "=") token with
      | some i => (token.take i, token.drop (i + 1))
      | none => (token, token)
    let isNum :=
      match given.getLast? with
      | some c => isDigit c
      | none => true
    if isNum then (stoi given).map fun val => (name, val) else some (name, -1)
  else some (token, 1)

/-- The loop of `parse_cache_hdrs` over the commas, for positions in the range of `int`
(`runParseCacheDirs`). -/
def parseCacheDirs (dirs : Bytes) (hdrs : StringMap Int) : Option (StringMap Int) :=
  match h : find (str ",") dirs with
  | some pos =>
    have : (dirs.drop (pos + 1)).length < dirs.length :=
      length_drop_find_lt (by decide) h Nat.one_pos
    match parseDirective (trim (dirs.take pos)) with
    | some (token, val) => parseCacheDirs (dirs.drop (pos + 1)) (hdrs.insert token val)
    | none => none
  | none => (parseDirective (trim dirs)).map fun (token, val) => hdrs.insert token val
  termination_by dirs.length

/-- `ProxyHandler::parse_cache_hdrs`, for positions in the range of `int` (`runParseCacheHdrs`). -/
def parseCacheHdrs (headers : StringMap Bytes) : Option (StringMap Int) :=
  parseCacheDirs (headers.getD (str "Cache-Control") []) ∅

/-- `cache_hdrs[name]`. -/
def directive (hdrs : StringMap Int) (name : Bytes) : Int := hdrs.getD name 0

/-! ## The cache -/

/-- `ProxyHandler::cached_pages`. -/
abbrev Cache : Type := StringMap CachedPage

/-- The readings of `time(0)` during one request, by the function that reads. -/
structure Clock : Type where
  /-- in `couldStale` -/
  couldStale : Int
  /-- in `isExpired` -/
  isExpired : Int
  /-- in `isFresh` -/
  isFresh : Int
  /-- in the constructor of `cached_page` -/
  store : Int

/-- What `cache_control` decides: its result, its reference arguments, and the cache. -/
structure CacheDecision : Type where
  /-- the returned value -/
  res : Bool
  /-- the cache is good to use -/
  canUse : Bool
  /-- the client only accepts a cached response -/
  cacheOnly : Bool
  /-- the response should be cached -/
  shouldCache : Bool
  /-- `cached_pages` afterwards -/
  cache : Cache

/-- The part of `cache_control` that compares a page with `max-age`, `max-stale` and
`min-fresh`: the result and `can_use`. -/
def checkAge (hdrs : StringMap Int) (page : CachedPage) (clock : Clock) : Bool × Bool :=
  let maxAge := directive hdrs (str "max-age")
  let maxStale := directive hdrs (str "max-stale")
  let minFresh := directive hdrs (str "min-fresh")
  let (res, canUse) :=
    if maxAge ≠ 0 ∧ maxStale ≠ 0 then
      let staleOk := if maxAge > maxStale then false else true
      if !(staleOk && page.couldStale maxStale clock.couldStale) then (true, false)
      else if page.isExpired maxAge clock.isExpired then (true, false)
      else (true, true)
    else if maxAge ≠ 0 then
      let canUse := !page.isExpired maxAge clock.isExpired
      (canUse, canUse)
    else if maxStale ≠ 0 then
      let canUse := page.couldStale maxStale clock.couldStale
      (canUse, canUse)
    else (true, true)
  if minFresh ≠ 0 then
    let canUse := page.isFresh minFresh clock.isFresh
    (if canUse then res else false, canUse)
  else (res, canUse)

/-- `ProxyHandler::cache_control`. -/
def cacheControl (cache : Cache) (hdrs : StringMap Int) (uri : Bytes) (mustValidate : Bool)
    (clock : Clock) : CacheDecision :=
  match if mustValidate then none else cache[uri]? with
  -- the cached version is present
  | some page =>
    let (res, canUse) := checkAge hdrs page clock
    if directive hdrs (str "no-store") ≠ 0 then
      { res := true, canUse := false, cacheOnly := false, shouldCache := true,
        cache := cache.erase uri }
    else { res, canUse, cacheOnly := false, shouldCache := true, cache }
  | none =>
    { res := true, canUse := false,
      cacheOnly := !mustValidate && decide (directive hdrs (str "only-if-cached") ≠ 0),
      shouldCache := decide (directive hdrs (str "no-store") = 0), cache }

/-- `ProxyHandler::store_cache`: `std::map::insert` keeps an existing page. -/
def storeCache (cache : Cache) (uri : Bytes) (res : Response) (now : Int) : Cache :=
  cache.insertIfNew uri ⟨res, now, oneMin⟩

/-- `ProxyHandler::no_cache`. -/
def noCache : Response where
  code := Response.gatewayTimeout
  headers := ((∅ : StringMap Bytes).insert (str "Content-type") (str "text/plain")).insert
    (str "Connection") (str "close")
  body := []
  srcType := 0

/-! ## The upstream reply -/

/-- What curl comes back with. -/
inductive Upstream : Type where
  /-- `curl_easy_init` failed -/
  | noCurl
  /-- an option could not be set -/
  | setoptError
  /-- `curl_easy_perform` failed -/
  | failed
  /-- a reply: its code, the lines passed to `header_callback`, its body -/
  | reply (code : Int) (lines : List Bytes) (msg : Bytes)

/-- `header_callback`: the line up to its end, split at the first colon; the value starts
two characters later, and the first header of a name stays. -/
def headerCallback (headerMap : StringMap Bytes) (buffer : Bytes) : Option (StringMap Bytes) :=
  let hdr := buffer.takeWhile fun c : Byte => c != '\r' && c != '\n'
  match find (str ":") hdr with
  | none => some headerMap
  | some colon => (substr hdr (colon + 2)).map fun v => headerMap.insertIfNew (hdr.take colon) v

/-- A `ProxyHandler`. -/
structure ProxyHandler : Type where
  /-- path that the handler responds to -/
  serveAddr : Bytes
  /-- address that it is acting as reverse proxy for -/
  proxyAddr : Bytes
  deriving DecidableEq

namespace ProxyHandler

/-- The loop of `parse_html_body`: `currTarget` is the text since the last character that
was neither a quotation mark nor a slash. -/
def editHtml (targetAddr : Bytes) : Bytes → Bytes → Bytes
  | _, [] => []
  | currTarget, c :: msg =>
    if c = '"' then c :: editHtml targetAddr (currTarget ++ [c]) msg
    else if c = '/' then
      if currTarget ++ [c] = str "\"/" then targetAddr ++ str "/" ++ editHtml targetAddr [] msg
      else c :: editHtml targetAddr [] msg
    else c :: editHtml targetAddr [] msg

/-- `ProxyHandler::parse_html_body`; it looks at the last character of `serve_addr`. -/
def parseHtmlBody (h : ProxyHandler) (msg : Bytes) : Option Bytes :=
  match h.serveAddr.getLast? with
  | none => none
  | some c => some (editHtml (if c = '/' then h.serveAddr.dropLast else h.serveAddr) [] msg)

/-- The destination of a request. `replace` throws when `serve_addr` does not occur. -/
def destination (h : ProxyHandler) (uri : Bytes) : Option Bytes :=
  if (str "http").isPrefixOf uri then some uri
  else
    match find h.serveAddr uri with
    | none => none
    | some i =>
      let suffix := uri.take i ++ uri.drop (i + h.serveAddr.length)
      if suffix.head? ≠ some ('/' : Byte) then
        match h.proxyAddr.getLast? with
        | none => none
        | some c => some (h.proxyAddr ++ (if c ≠ '/' then str "/" ++ suffix else suffix))
      else some (h.proxyAddr ++ suffix)

/-- The part of `handleRequest` that fetches the response from upstream. -/
def fetch (h : ProxyHandler) (uri : Bytes) (upstream : Bytes → Upstream) : Option Response :=
  match h.destination uri with
  | none => none
  | some dest =>
    match upstream dest with
    | .reply code lines msg =>
      match lines.foldlM headerCallback ∅ with
      | none => none
      | some headerData =>
        let edited :=
          match headerData[str "Content-Type"]? with
          | some contentType =>
            if contains (str "text/html") contentType then h.parseHtmlBody msg else some msg
          | none => some msg
        edited.map fun editedMsg =>
          { code, body := editedMsg, srcType := 0,
            headers := ((headerData.insert (str "Content-Length")
              (str (toString editedMsg.length))).insert (str "Connection") (str "close")).erase
                (str "Transfer-Encoding") }
    | _ => some { code := Response.internalServerError, headers := ∅, body := [], srcType := 0 }

/-- The three ways in which `handleRequest` answers. -/
inductive Answer : Type where
  /-- `use_cache(req_uri)`, with the page used -/
  | useCache (page : CachedPage)
  /-- `no_cache()` -/
  | noCache
  /-- the response just fetched -/
  | fetched (res : Response)

/-- The returned response. -/
def Answer.response : Answer → Response
  | .useCache page => page.response
  | .noCache => LowKeyWebServer.noCache
  | .fetched res => res

/-- `ProxyHandler::handleRequest`: the answer, and `cached_pages` afterwards. -/
def handleRequest (h : ProxyHandler) (cache : Cache) (clock : Clock)
    (upstream : Bytes → Upstream) (request : Request) : Option (Answer × Cache) :=
  match parseCacheHdrs request.headers with
  | none => none
  | some hdrs =>
    let mustValidate := decide (directive hdrs (str "no-cache") ≠ 0)
    let d := cacheControl cache hdrs request.uri mustValidate clock
    if d.canUse then d.cache[request.uri]?.map fun page => (.useCache page, d.cache)
    else if d.cacheOnly then some (.noCache, d.cache)
    else
      match h.fetch request.uri upstream with
      | none => none
      | some res =>
        if d.shouldCache ∧ res.code = Response.ok then
          some (.fetched res, storeCache d.cache request.uri res clock.store)
        else some (.fetched res, d.cache)

end ProxyHandler

end LowKeyWebServer
