import LowKeyWebServer.Dispatcher

/-!
# The strings of the proxy

`handleRequest` and `parse_html_body` once more, with what ends them kept apart: the last character
of an empty string, `replace` at `npos`, and the exceptions of `stoi` and `substr`. Forgetting the
difference gives the functions of the other modules (`toOption_handleRequestChecked`).

`stringSafe_run` is the condition on the requests of a run under which none of the first two happens.
-/

namespace LowKeyWebServer

/-- What ends a call without a response. -/
inductive Fault : Type where
  /-- `s[s.length() - 1]` of an empty string -/
  | emptyString
  /-- `s.replace(std::string::npos, ..)` -/
  | noPosition
  /-- an exception of another call -/
  | exception
  deriving DecidableEq

/-- The call ends at a string. -/
def StringFault {α : Type} (call : Except Fault α) : Prop := ∃ f, call = .error f ∧ f ≠ .exception

theorem not_stringFault_ok {α : Type} (a : α) : ¬ StringFault (.ok a : Except Fault α) := by
  rintro ⟨f, h, -⟩
  cases h

theorem not_stringFault_exception {α : Type} : ¬ StringFault (.error .exception : Except Fault α) := by
  rintro ⟨f, h, hf⟩
  exact hf (Except.error.inj h).symm

theorem stringFault_map {α β : Type} {f : α → β} {call : Except Fault α} :
    StringFault (call.map f) ↔ StringFault call := by
  rcases call with e | a
  · refine ⟨?_, ?_⟩ <;>
    · rintro ⟨g, h, hg⟩
      obtain rfl := Except.error.inj h
      exact ⟨_, rfl, hg⟩
  · exact iff_of_false (not_stringFault_ok _) (not_stringFault_ok _)

theorem toOption_map {α β : Type} (f : α → β) (call : Except Fault α) :
    (call.map f).toOption = call.toOption.map f := by
  rcases call with e | a <;> rfl

namespace ProxyHandler

/-! ## The calls, with their faults -/

/-- `s[s.length() - 1]`. -/
def lastCharacter (s : Bytes) : Except Fault Byte :=
  match s.getLast? with
  | none => .error .emptyString
  | some c => .ok c

/-- `s.replace(s.find(pat), pat.length(), "")`. -/
def removeFirst (s pat : Bytes) : Except Fault Bytes :=
  match find pat s with
  | none => .error .noPosition
  | some i => .ok (s.take i ++ s.drop (i + pat.length))

/-- The destination of a request. -/
def destinationChecked (h : ProxyHandler) (uri : Bytes) : Except Fault Bytes :=
  if (str "http").isPrefixOf uri then .ok uri
  else
    match removeFirst uri h.serveAddr with
    | .error f => .error f
    | .ok suffix =>
      -- without a slash at the front the last character of `proxy_addr` decides
      if suffix.head? ≠ some ('/' : Byte) then
        (lastCharacter h.proxyAddr).map fun c : Byte =>
          h.proxyAddr ++ (if c ≠ '/' then str "/" ++ suffix else suffix)
      else .ok (h.proxyAddr ++ suffix)

/-- `ProxyHandler::parse_html_body`. -/
def parseHtmlBodyChecked (h : ProxyHandler) (msg : Bytes) : Except Fault Bytes :=
  (lastCharacter h.serveAddr).map fun c : Byte =>
    editHtml (if c = '/' then h.serveAddr.dropLast else h.serveAddr) [] msg

/-- The part of `handleRequest` that fetches the response from upstream. -/
def fetchChecked (h : ProxyHandler) (uri : Bytes) (upstream : Bytes → Upstream) :
    Except Fault Response :=
  match h.destinationChecked uri with
  | .error f => .error f
  | .ok dest =>
    match upstream dest with
    | .reply code lines msg =>
      match lines.foldlM headerCallback ∅ with
      | none => .error .exception
      | some headerData =>
        let edited :=
          match headerData[str "Content-Type"]? with
          | some contentType =>
            if contains (str "text/html") contentType then h.parseHtmlBodyChecked msg else .ok msg
          | none => .ok msg
        edited.map fun editedMsg =>
          { code, body := editedMsg, srcType := 0,
            headers := ((headerData.insert (str "Content-Length")
              (str (toString editedMsg.length))).insert (str "Connection") (str "close")).erase
                (str "Transfer-Encoding") }
    | _ => .ok { code := Response.internalServerError, headers := ∅, body := [], srcType := 0 }

/-- `ProxyHandler::handleRequest`. -/
def handleRequestChecked (h : ProxyHandler) (cache : Cache) (clock : Clock)
    (upstream : Bytes → Upstream) (request : Request) : Except Fault (Answer × Cache) :=
  match parseCacheHdrs request.headers with
  | none => .error .exception
  | some hdrs =>
    let mustValidate := decide (directive hdrs (str "no-cache") ≠ 0)
    let d := cacheControl cache hdrs request.uri mustValidate clock
    if d.canUse then
      match d.cache[request.uri]? with
      | none => .error .exception
      | some page => .ok (.useCache page, d.cache)
    else if d.cacheOnly then .ok (.noCache, d.cache)
    else
      (h.fetchChecked request.uri upstream).map fun res =>
        if d.shouldCache ∧ res.code = Response.ok then
          (.fetched res, storeCache d.cache request.uri res clock.store)
        else (.fetched res, d.cache)

variable {h p : ProxyHandler} {uri : Bytes} {upstream : Bytes → Upstream} {s : History} {v : Visit}

theorem toOption_destinationChecked (h : ProxyHandler) (uri : Bytes) :
    (h.destinationChecked uri).toOption = h.destination uri := by
  rw [destinationChecked, destination]
  split
  · rfl
  · rw [removeFirst]
    rcases find h.serveAddr uri with - | i
    · rfl
    · dsimp only
      split
      · rw [toOption_map, lastCharacter]
        rcases h.proxyAddr.getLast? with - | c <;> rfl
      · rfl

theorem toOption_parseHtmlBodyChecked (h : ProxyHandler) (msg : Bytes) :
    (h.parseHtmlBodyChecked msg).toOption = h.parseHtmlBody msg := by
  rw [parseHtmlBodyChecked, parseHtmlBody, toOption_map, lastCharacter]
  rcases h.serveAddr.getLast? with - | c <;> rfl

theorem toOption_fetchChecked (h : ProxyHandler) (uri : Bytes) (upstream : Bytes → Upstream) :
    (h.fetchChecked uri upstream).toOption = h.fetch uri upstream := by
  rw [fetchChecked, fetch, ← toOption_destinationChecked]
  rcases h.destinationChecked uri with f | dest
  · rfl
  · have hsome : (Except.ok dest : Except Fault Bytes).toOption = some dest := rfl
    rw [hsome]
    dsimp only
    rcases upstream dest with - | - | - | ⟨code, lines, msg⟩
    · rfl
    · rfl
    · rfl
    · dsimp only
      rcases lines.foldlM headerCallback ∅ with - | headerData
      · rfl
      · dsimp only
        rw [toOption_map]
        rcases headerData[str "Content-Type"]? with - | contentType
        · rfl
        · dsimp only
          split
          · rw [toOption_parseHtmlBodyChecked]
          · rfl

/-- **Without the kinds of the faults** it is `handleRequest`. -/
theorem toOption_handleRequestChecked (h : ProxyHandler) (cache : Cache) (clock : Clock)
    (upstream : Bytes → Upstream) (request : Request) :
    (h.handleRequestChecked cache clock upstream request).toOption =
      h.handleRequest cache clock upstream request := by
  rw [handleRequestChecked, handleRequest]
  rcases parseCacheHdrs request.headers with - | hdrs
  · rfl
  · dsimp only
    split
    · rcases (cacheControl cache hdrs request.uri (decide (directive hdrs (str "no-cache") ≠ 0))
        clock).cache[request.uri]? with - | page <;> rfl
    · split
      · rfl
      · rw [toOption_map, toOption_fetchChecked]
        rcases h.fetch request.uri upstream with - | res
        · rfl
        · dsimp only [Option.map_some]
          split <;> rfl

/-! ## Where they fault -/

/-- `cache_control` leaves the request to the upstream. -/
def Fetches (s : History) (v : Visit) : Prop :=
  (parseCacheHdrs v.request.headers).isSome = true ∧ ¬ UsesCache s v ∧ ¬ LacksCache s v

/-- What is left of the URI once `serve_addr` is removed can stand behind `proxy_addr`. -/
def Resolves (h : ProxyHandler) (uri : Bytes) : Prop :=
  str "http" <+: uri ∨ ∃ i, find h.serveAddr uri = some i ∧
    (h.proxyAddr ≠ [] ∨
      (uri.take i ++ uri.drop (i + h.serveAddr.length)).head? = some ('/' : Byte))

theorem stringFault_lastCharacter {t : Bytes} : StringFault (lastCharacter t) ↔ t = [] := by
  rw [lastCharacter]
  rcases ht : t.getLast? with - | c
  · exact iff_of_true ⟨_, rfl, by decide⟩ (List.getLast?_eq_none_iff.mp ht)
  · refine iff_of_false (not_stringFault_ok c) ?_
    rintro rfl
    cases ht

theorem stringFault_destinationChecked : StringFault (h.destinationChecked uri) ↔ ¬ Resolves h uri := by
  rw [destinationChecked, Resolves, ← List.isPrefixOf_iff_prefix]
  split
  · next hhttp => exact iff_of_false (not_stringFault_ok uri) fun hno => hno (Or.inl hhttp)
  · next hhttp =>
    rw [removeFirst]
    rcases find h.serveAddr uri with - | i
    · refine iff_of_true ⟨_, rfl, by decide⟩ ?_
      rintro (hyes | ⟨i, hi, -⟩)
      · exact hhttp hyes
      · cases hi
    · simp only [Option.some.injEq, exists_eq_left']
      generalize uri.take i ++ uri.drop (i + h.serveAddr.length) = suffix
      rw [or_iff_right hhttp]
      split
      · next hslash => rw [stringFault_map, stringFault_lastCharacter, or_iff_left hslash, not_not]
      · next hslash =>
        exact iff_of_false (not_stringFault_ok _) fun hno => hno (Or.inr (not_not.mp hslash))

/-- The destination throws nothing else. -/
theorem destinationChecked_error {f : Fault} (hdest : h.destinationChecked uri = .error f) :
    f ≠ .exception := by
  rintro rfl
  rw [destinationChecked] at hdest
  split at hdest
  · cases hdest
  · rw [removeFirst] at hdest
    rcases hfind : find h.serveAddr uri with - | i
    · rw [hfind] at hdest
      cases hdest
    · rw [hfind] at hdest
      dsimp only at hdest
      split at hdest
      · rw [lastCharacter] at hdest
        rcases hlast : h.proxyAddr.getLast? with - | c <;> rw [hlast] at hdest <;> cases hdest
      · cases hdest

/-- A destination that can be made, and for a page of HTML an address to put before its links. -/
def FetchesSafely (h : ProxyHandler) (uri : Bytes) (upstream : Bytes → Upstream) : Prop :=
  Resolves h uri ∧ ∀ dest code lines msg, h.destination uri = some dest →
    upstream dest = .reply code lines msg → rewrites lines = true → h.serveAddr ≠ []

/-- A reply ends at a string where it is a page of HTML, and there is no address. -/
theorem stringFault_reply {dest : Bytes} {code : Int} {lines : List Bytes} {msg : Bytes}
    (hdest : h.destinationChecked uri = .ok dest) (hreply : upstream dest = .reply code lines msg) :
    StringFault (h.fetchChecked uri upstream) ↔ rewrites lines = true ∧ h.serveAddr = [] := by
  rw [fetchChecked, hdest]
  dsimp only
  rw [hreply, rewrites, testedType]
  dsimp only
  rcases lines.foldlM headerCallback ∅ with - | headerData
  · refine iff_of_false not_stringFault_exception ?_
    rintro ⟨h, -⟩
    simp at h
  · dsimp only [Option.getD_some]
    rw [stringFault_map]
    rcases headerData[str "Content-Type"]? with - | contentType
    · exact iff_of_false (not_stringFault_ok _) fun hno => Bool.false_ne_true hno.1
    · dsimp only
      split
      · next htype =>
        rw [parseHtmlBodyChecked, stringFault_map, stringFault_lastCharacter]
        exact (and_iff_right htype).symm
      · next htype => exact iff_of_false (not_stringFault_ok _) fun hno => htype hno.1

theorem stringFault_fetchChecked :
    StringFault (h.fetchChecked uri upstream) ↔ ¬ FetchesSafely h uri upstream := by
  have hresolves : StringFault (h.destinationChecked uri) ↔ ¬ Resolves h uri :=
    stringFault_destinationChecked
  rw [FetchesSafely, ← toOption_destinationChecked]
  rcases hdest : h.destinationChecked uri with f | dest
  · have hf := destinationChecked_error hdest
    rw [hdest] at hresolves
    refine iff_of_true ⟨f, ?_, hf⟩ fun hsafe => hresolves.mp ⟨f, rfl, hf⟩ hsafe.1
    rw [fetchChecked, hdest]
  · rw [hdest] at hresolves
    have hsome : (Except.ok dest : Except Fault Bytes).toOption = some dest := rfl
    rw [hsome, and_iff_right (not_not.mp fun hno => not_stringFault_ok dest (hresolves.mpr hno))]
    rcases hreply : upstream dest with - | - | - | ⟨code, lines, msg⟩
    case reply =>
      rw [stringFault_reply hdest hreply]
      refine ⟨?_, fun hunsafe => ?_⟩
      · rintro ⟨hhtml, haddr⟩ hsafe
        exact hsafe dest code lines msg rfl hreply hhtml haddr
      · by_contra hno
        refine hunsafe fun dest' code' lines' msg' hdest' hreply' hhtml haddr => hno ⟨?_, haddr⟩
        obtain rfl := Option.some.inj hdest'
        rw [hreply] at hreply'
        obtain ⟨-, rfl, -⟩ := Upstream.reply.inj hreply'
        exact hhtml
    all_goals
      refine iff_of_false ?_ fun hunsafe => hunsafe ?_
      · rw [fetchChecked, hdest]
        dsimp only
        rw [hreply]
        exact not_stringFault_ok _
      · intro dest' code lines msg hdest' hreply'
        obtain rfl := Option.some.inj hdest'
        rw [hreply] at hreply'
        cases hreply'

/-- What `cache_control` decides about a request. -/
theorem cacheControl_iff {hdrs : StringMap Int} (hhdrs : parseCacheHdrs v.request.headers = some hdrs)
    {d : CacheDecision} (hd : cacheControl s.cache hdrs v.request.uri
      (decide (directive hdrs (str "no-cache") ≠ 0)) v.clock = d) :
    (d.canUse = true ↔ UsesCache s v) ∧ (d.cacheOnly = true ↔ LacksCache s v) := by
  have huses : UsesCache s v ↔ ∃ page, s.cache[v.request.uri]? = some page ∧
      ¬ Refuses hdrs page v.clock := by
    rw [UsesCache, hhdrs]
    simp only [Option.some.injEq, exists_and_left, exists_eq_left']
  have hlacks : LacksCache s v ↔ directive hdrs (str "no-cache") = 0 ∧
      directive hdrs (str "only-if-cached") ≠ 0 ∧ s.cache[v.request.uri]? = none := by
    rw [LacksCache, hhdrs]
    simp only [Option.some.injEq, exists_eq_left']
  rw [huses, hlacks, ← hd]
  by_cases hno : directive hdrs (str "no-cache") = 0
  · have hv : decide (directive hdrs (str "no-cache") ≠ 0) = false := decide_eq_false (not_not.mpr hno)
    rcases hpage : s.cache[v.request.uri]? with - | page
    · rw [cacheControl_none hdrs v.clock (Or.inr hpage), hv]
      simp [hno]
    · rw [cacheControl_some hdrs v.clock hv hpage]
      simp only [Option.some.injEq, exists_eq_left', Refuses, hno]
      split <;> simp [*]
  · have hv : decide (directive hdrs (str "no-cache") ≠ 0) = true := decide_eq_true hno
    rw [cacheControl_none hdrs v.clock (Or.inl hv), hv]
    simp [hno, Refuses]

/-- A call of `handleRequest` faults where its fetch does, if there is one. -/
theorem stringFault_handleRequestChecked :
    StringFault (p.handleRequestChecked s.cache v.clock v.upstream v.request) ↔
      Fetches s v ∧ ¬ FetchesSafely p v.request.uri v.upstream := by
  rw [handleRequestChecked, Fetches, ← stringFault_fetchChecked]
  rcases hhdrs : parseCacheHdrs v.request.headers with - | hdrs
  · exact iff_of_false not_stringFault_exception fun hno => Bool.false_ne_true hno.1.1
  · obtain ⟨huse, honly⟩ := cacheControl_iff (s := s) (v := v) hhdrs rfl
    rw [← huse, ← honly]
    dsimp only [Option.isSome_some]
    split
    · next hcan =>
      refine iff_of_false ?_ fun hno => hno.1.2.1 hcan
      split
      · exact not_stringFault_exception
      · exact not_stringFault_ok _
    · next hcan =>
      split
      · next hcached => exact iff_of_false (not_stringFault_ok _) fun hno => hno.1.2.2 hcached
      · next hcached =>
        rw [stringFault_map]
        exact (and_iff_right ⟨rfl, hcan, hcached⟩).symm

/-! ## Locations of a config -/

/-- A handler whose location the URI begins with, and whose `proxy_pass` is not empty. -/
theorem fetchesSafely_of_prefix {t : Bytes} (hserve : h.serveAddr ≠ []) (hproxy : h.proxyAddr ≠ []) :
    FetchesSafely h (h.serveAddr ++ t) upstream :=
  ⟨Or.inr ⟨0, find_front h.serveAddr t, Or.inl hproxy⟩, fun _ _ _ _ _ _ _ => hserve⟩

/-- A quoted location is trimmed to itself. -/
theorem setLocation_quote {location : Bytes} (hlocation : ('"' : Byte) ∉ location) (proxyPass : Bytes) :
    setLocation (Server.quote location) proxyPass = ⟨location, trimQuotes proxyPass⟩ := by
  -- one mark is dropped at each end
  have hdrop : ∀ t : Bytes, t.head? ≠ some ('"' : Byte) →
      (('"' : Byte) :: t).dropWhile (fun c : Byte => c == '"') = t := by
    intro t ht
    rw [List.dropWhile_cons_of_pos (by simp)]
    rcases t with - | ⟨c, t⟩
    · rfl
    · exact List.dropWhile_cons_of_neg (by simpa using ht)
  have hhead : ∀ t : Bytes, ('"' : Byte) ∉ t → t.head? ≠ some ('"' : Byte) :=
    fun t ht h => ht (List.mem_of_head? h)
  have hreverse : ('"' : Byte) ∉ location.reverse := by rwa [List.mem_reverse]
  refine congrArg (fun serveAddr => ProxyHandler.mk serveAddr (trimQuotes proxyPass)) ?_
  rw [trimQuotes, Server.quote]
  rcases location with - | ⟨c, location⟩
  · rfl
  · have hfirst : (str "\"" ++ (c :: location) ++ str "\"").dropWhile (fun c : Byte => c == '"') =
        (c :: location) ++ [('"' : Byte)] :=
      hdrop ((c :: location) ++ [('"' : Byte)]) (hhead (c :: location) hlocation)
    rw [hfirst, List.reverse_append, List.reverse_singleton, List.singleton_append,
      hdrop _ (hhead _ hreverse), List.reverse_reverse]

end ProxyHandler

namespace Site

/-- No string is indexed or replaced out of range by the proxy of a request's handler. -/
def StringSafe (s : Site) (v : Visit) : Prop :=
  ∀ h p, s.callee v = some h → h.proxyOf = some p →
    ¬ StringFault (p.handleRequestChecked s.history.cache v.clock v.upstream v.request)

/-- If the request is fetched, then from a destination that can be made, and a page of HTML only
with an address to put before its links. -/
def SafeFetch (s : Site) (v : Visit) : Prop :=
  ∀ h p, s.callee v = some h → h.proxyOf = some p → ProxyHandler.Fetches s.history v →
    ProxyHandler.FetchesSafely p v.request.uri v.upstream

theorem stringSafe_iff (s : Site) (v : Visit) : StringSafe s v ↔ SafeFetch s v := by
  refine forall₂_congr fun h p => forall₂_congr fun _ _ => ?_
  rw [ProxyHandler.stringFault_handleRequestChecked, not_and, not_not]

/-- A proxy location with a `proxy_pass` is safe for the URIs that begin with it. -/
theorem stringSafe_of_location {s : Site} {v : Visit} {location proxyPass t : Bytes}
    (hcallee : s.callee v = some (.proxy (.setLocation (Server.quote location) proxyPass)))
    (hquote : ('"' : Byte) ∉ location) (hlocation : location ≠ [])
    (hproxy : ProxyHandler.trimQuotes proxyPass ≠ []) (huri : v.request.uri = location ++ t) :
    StringSafe s v := by
  refine (stringSafe_iff s v).mpr fun h p hh hp _ => ?_
  obtain rfl := Option.some.inj (hcallee.symm.trans hh)
  obtain rfl := Option.some.inj hp
  rw [ProxyHandler.setLocation_quote hquote, huri]
  exact ProxyHandler.fetchesSafely_of_prefix hlocation hproxy

/-- **Proxy string safety**, for every request of every run. -/
theorem stringSafe_run (server : Server) (visits : List Visit) :
    (∀ e ∈ Machine.trace step (new server) visits, StringSafe e.1 e.2) ↔
      ∀ e ∈ Machine.trace step (new server) visits, SafeFetch e.1 e.2 :=
  forall₂_congr fun e _ => stringSafe_iff e.1 e.2

/-- A page that is fetched through the cache handler, which has no address of its own. -/
theorem not_stringSafe_cache : ¬ ∀ (configBlocks : List ConfigBlock) (server : Server)
    (visits : List Visit), Server.start configBlocks = some server →
    ∀ e ∈ Machine.trace step (new server) visits, StringSafe e.1 e.2 := by
  intro h
  let v : Visit := ⟨⟨.get, str "http://a/", ∅, [], str "HTTP/1.1"⟩, ⟨[], fun _ => none⟩, ⟨0, 0, 0, 0⟩,
    fun _ => .reply 200 [str "Content-Type: text/html\r\n"] (str "<p>")⟩
  have hstart : Server.start [⟨Server.quote (str "/http"), str "CacheHandler", []⟩] = some cacheServer :=
    rfl
  have hcallee : (new cacheServer).callee v = some .cache := by decide +kernel
  have hfetches : ProxyHandler.Fetches (new cacheServer).history v := by
    have hpage : (new cacheServer).history.cache[v.request.uri]? = none := by decide +kernel
    refine ⟨by decide +kernel, ?_, ?_⟩
    · rintro ⟨hdrs, page, -, hsome, -⟩
      rw [hpage] at hsome
      cases hsome
    · rintro ⟨hdrs, hhdrs, -, honly, -⟩
      have hnone : (parseCacheHdrs v.request.headers).map
          (fun hdrs => directive hdrs (str "only-if-cached")) = some 0 := by decide +kernel
      rw [hhdrs] at hnone
      exact honly (Option.some.inj hnone)
  have hrewrites : ProxyHandler.rewrites [str "Content-Type: text/html\r\n"] = true := by decide +kernel
  have hsafe := (stringSafe_iff _ v).mp (h _ cacheServer [v] hstart _ List.mem_cons_self) _ _ hcallee rfl
    hfetches
  exact hsafe.2 _ _ _ _ rfl rfl hrewrites rfl

end Site

end LowKeyWebServer
