import LowKeyWebServer.ProxyHandler
import LowKeyWebServer.Lib.Trace

/-!
# Coherence of the proxy's cache

What the cache is for: a page in it is the latest one. `CacheRun` keeps, beside
`cached_pages`, the latest page that each URI was answered with from upstream (code 200,
by a request without `no-store`); `coherent_run` says when a request answered from the
cache gets that page, and `no_store_iff` when a `no-store` request leaves no page behind.
-/

namespace LowKeyWebServer

open Std

namespace ProxyHandler

/-! ## One request -/

variable {h : ProxyHandler} {cache cache' : Cache} {clock : Clock} {upstream : Bytes → Upstream}
  {request : Request} {answer : Answer} {hdrs : StringMap Int}

/-- The client does not take the page: it wants a new response, it wants no trace of one,
or the page has not the age it asks for. -/
def Refuses (hdrs : StringMap Int) (page : CachedPage) (clock : Clock) : Prop :=
  directive hdrs (str "no-cache") ≠ 0 ∨ directive hdrs (str "no-store") ≠ 0 ∨
    (checkAge hdrs page clock).2 = false

/-- A page is present, and the client does not force a new response. -/
theorem cacheControl_some (hdrs : StringMap Int) (clock : Clock) {uri : Bytes} {mustValidate : Bool} {page : CachedPage}
    (hv : mustValidate = false) (hpage : cache[uri]? = some page) :
    cacheControl cache hdrs uri mustValidate clock =
      if directive hdrs (str "no-store") ≠ 0 then ⟨true, false, false, true, cache.erase uri⟩
      else ⟨(checkAge hdrs page clock).1, (checkAge hdrs page clock).2, false, true, cache⟩ := by
  rw [cacheControl, hv, if_neg Bool.false_ne_true, hpage]

/-- No page is present, or the client forces a new response. -/
theorem cacheControl_none (hdrs : StringMap Int) (clock : Clock) {uri : Bytes} {mustValidate : Bool}
    (hpage : mustValidate = true ∨ cache[uri]? = none) :
    cacheControl cache hdrs uri mustValidate clock =
      ⟨true, false, !mustValidate && decide (directive hdrs (str "only-if-cached") ≠ 0),
        decide (directive hdrs (str "no-store") = 0), cache⟩ := by
  have hnone : (if mustValidate = true then none else cache[uri]?) = none := by
    rcases hpage with hv | hnone
    · rw [if_pos hv]
    · rw [hnone, ite_self]
  rw [cacheControl, hnone]

/-- A call that returns has read its directives. -/
theorem exists_hdrs (hreq : h.handleRequest cache clock upstream request = some (answer, cache')) :
    ∃ hdrs, parseCacheHdrs request.headers = some hdrs := by
  rcases hn : parseCacheHdrs request.headers with - | hdrs
  · rw [handleRequest, hn] at hreq
    cases hreq
  · exact ⟨hdrs, rfl⟩

/-- A request that is neither answered from the cache nor only asks for it is fetched. -/
theorem handleRequest_fetch (hhdrs : parseCacheHdrs request.headers = some hdrs) {d : CacheDecision}
    (hd : cacheControl cache hdrs request.uri (decide (directive hdrs (str "no-cache") ≠ 0)) clock = d)
    (huse : d.canUse = false) (honly : d.cacheOnly = false) :
    h.handleRequest cache clock upstream request =
      (h.fetch request.uri upstream).map fun res =>
        (.fetched res, if d.shouldCache = true ∧ res.code = Response.ok then
          storeCache d.cache request.uri res clock.store else d.cache) := by
  subst hd
  rw [handleRequest, hhdrs]
  dsimp only
  rw [huse, honly, if_neg Bool.false_ne_true, if_neg Bool.false_ne_true]
  rcases h.fetch request.uri upstream with - | res
  · rfl
  · dsimp only [Option.map_some]
    split <;> rfl

/-- **What one request can do** to the cache, by how it is answered. -/
theorem handleRequest_cases (hhdrs : parseCacheHdrs request.headers = some hdrs)
    (hreq : h.handleRequest cache clock upstream request = some (answer, cache')) :
    (∃ page, answer = .useCache page ∧ cache[request.uri]? = some page ∧
      ¬ Refuses hdrs page clock ∧ cache' = cache) ∨
    (answer = .noCache ∧ cache' = cache) ∨
    ∃ res, answer = .fetched res ∧ h.fetch request.uri upstream = some res ∧
      ((directive hdrs (str "no-store") ≠ 0 ∧ directive hdrs (str "no-cache") = 0 ∧
          request.uri ∈ cache ∧ cache' = if res.code = Response.ok then
            storeCache (cache.erase request.uri) request.uri res clock.store
          else cache.erase request.uri) ∨
        (directive hdrs (str "no-store") ≠ 0 ∧
          (directive hdrs (str "no-cache") ≠ 0 ∨ request.uri ∉ cache) ∧ cache' = cache) ∨
        (directive hdrs (str "no-store") = 0 ∧
          (∀ page, cache[request.uri]? = some page → Refuses hdrs page clock) ∧
          cache' = if res.code = Response.ok then storeCache cache request.uri res clock.store
            else cache)) := by
  by_cases hpresent : directive hdrs (str "no-cache") = 0 ∧ request.uri ∈ cache
  · obtain ⟨hno, hmem⟩ := hpresent
    obtain ⟨page, hpage⟩ := Option.isSome_iff_exists.mp (TreeMap.mem_iff_isSome_getElem?.mp hmem)
    have hv : decide (directive hdrs (str "no-cache") ≠ 0) = false := decide_eq_false (not_not.mpr hno)
    have hd := cacheControl_some hdrs clock hv hpage
    by_cases hstore : directive hdrs (str "no-store") ≠ 0
    · -- the page is erased, and the fetched one may take its place
      rw [if_pos hstore] at hd
      rw [handleRequest_fetch hhdrs hd rfl rfl] at hreq
      obtain ⟨res, hres, heq⟩ := Option.map_eq_some_iff.mp hreq
      obtain ⟨rfl, rfl⟩ := Prod.mk.inj heq
      refine Or.inr (Or.inr ⟨res, rfl, hres, Or.inl ⟨hstore, hno, hmem, ?_⟩⟩)
      simp
    · rw [if_neg hstore] at hd
      rcases hage : (checkAge hdrs page clock).2 with - | -
      · rw [hage] at hd
        rw [handleRequest_fetch hhdrs hd rfl rfl] at hreq
        obtain ⟨res, hres, heq⟩ := Option.map_eq_some_iff.mp hreq
        obtain ⟨rfl, rfl⟩ := Prod.mk.inj heq
        refine Or.inr (Or.inr ⟨res, rfl, hres, Or.inr (Or.inr ⟨not_not.mp hstore, ?_, ?_⟩)⟩)
        · intro page' hpage'
          obtain rfl := Option.some.inj (hpage.symm.trans hpage')
          exact Or.inr (Or.inr hage)
        · simp
      · -- the page is used
        rw [hage] at hd
        rw [handleRequest, hhdrs] at hreq
        dsimp only at hreq
        rw [hd, if_pos rfl, hpage] at hreq
        obtain ⟨rfl, rfl⟩ := Prod.mk.inj (Option.some.inj hreq)
        refine Or.inl ⟨page, rfl, hpage, ?_, rfl⟩
        rintro (hc | hs | ha)
        · exact hc hno
        · exact hstore hs
        · rw [hage] at ha
          cases ha
  · have hnone : decide (directive hdrs (str "no-cache") ≠ 0) = true ∨ cache[request.uri]? = none := by
      by_cases hno : directive hdrs (str "no-cache") = 0
      · refine Or.inr (TreeMap.getElem?_eq_none fun hmem => hpresent ⟨hno, hmem⟩)
      · exact Or.inl (decide_eq_true hno)
    have hd := cacheControl_none hdrs clock hnone
    rcases honly : (!decide (directive hdrs (str "no-cache") ≠ 0) &&
        decide (directive hdrs (str "only-if-cached") ≠ 0)) with - | -
    · rw [honly] at hd
      rw [handleRequest_fetch hhdrs hd rfl rfl] at hreq
      obtain ⟨res, hres, heq⟩ := Option.map_eq_some_iff.mp hreq
      obtain ⟨rfl, rfl⟩ := Prod.mk.inj heq
      refine Or.inr (Or.inr ⟨res, rfl, hres, Or.inr ?_⟩)
      by_cases hstore : directive hdrs (str "no-store") = 0
      · refine Or.inr ⟨hstore, fun page hpage => ?_, by simp [hstore]⟩
        rcases hnone with hv | hn
        · exact Or.inl (of_decide_eq_true hv)
        · rw [hpage] at hn
          cases hn
      · refine Or.inl ⟨hstore, ?_, by simp [hstore]⟩
        by_cases hno : directive hdrs (str "no-cache") = 0
        · exact Or.inr fun hmem => hpresent ⟨hno, hmem⟩
        · exact Or.inl hno
    · rw [honly] at hd
      rw [handleRequest, hhdrs] at hreq
      dsimp only at hreq
      rw [hd, if_neg Bool.false_ne_true, if_pos rfl] at hreq
      obtain ⟨rfl, rfl⟩ := Prod.mk.inj (Option.some.inj hreq)
      exact Or.inr (Or.inl ⟨rfl, rfl⟩)

/-! ## Storing pages -/

theorem getElem?_storeCache (cache : Cache) (uri : Bytes) (res : Response) (now : Int) (u : Bytes) :
    (storeCache cache uri res now)[u]? =
      if uri = u ∧ uri ∉ cache then some ⟨res, now, oneMin⟩ else cache[u]? := by
  simp [storeCache, TreeMap.getElem?_insertIfNew]

theorem getElem?_of_erase {uri u : Bytes} {page : CachedPage}
    (hp : (cache.erase uri)[u]? = some page) : cache[u]? = some page := by
  rw [TreeMap.getElem?_erase] at hp
  split at hp
  · cases hp
  · exact hp

/-! ## Coherence of a run -/

/-- A call of `handleRequest`, with what it reads from outside. -/
structure ProxyCall : Type where
  /-- the handler that is called -/
  handler : ProxyHandler
  /-- the request -/
  request : Request
  /-- the readings of `time(0)` -/
  clock : Clock
  /-- what curl comes back with -/
  upstream : Bytes → Upstream

/-- The call's answer, and the cache after it. -/
def ProxyCall.run (c : ProxyCall) (cache : Cache) : Option (Answer × Cache) :=
  c.handler.handleRequest cache c.clock c.upstream c.request

/-- The response may be cached: the request has no `no-store`. -/
def ProxyCall.allowed (c : ProxyCall) : Bool :=
  match parseCacheHdrs c.request.headers with
  | some hdrs => decide (directive hdrs (str "no-store") = 0)
  | none => false

theorem allowed_eq {c : ProxyCall} (hhdrs : parseCacheHdrs c.request.headers = some hdrs) :
    c.allowed = decide (directive hdrs (str "no-store") = 0) := by
  rw [ProxyCall.allowed, hhdrs]

/-- The cache, and what it should hold: the latest page of each URI. -/
structure CacheRun : Type where
  /-- `cached_pages` -/
  cache : Cache
  /-- the page of the latest response with code 200 to a request that allows caching -/
  latest : StringMap CachedPage

namespace CacheRun

/-- Before the first request. -/
def start : CacheRun := ⟨∅, ∅⟩

/-- The latest pages after an answer. -/
def record (latest : StringMap CachedPage) (c : ProxyCall) : Answer → StringMap CachedPage
  | .fetched res =>
    if res.code = Response.ok ∧ c.allowed = true then
      latest.insert c.request.uri ⟨res, c.clock.store, oneMin⟩
    else latest
  | _ => latest

/-- One call. -/
def step (s : CacheRun) (c : ProxyCall) : Option CacheRun :=
  (c.run s.cache).map fun out => ⟨out.2, record s.latest c out.1⟩

/-- What is answered from the cache is the latest page. -/
def Coherent (s : CacheRun) (c : ProxyCall) : Prop :=
  ∀ page cache', c.run s.cache = some (.useCache page, cache') →
    s.latest[c.request.uri]? = some page

/-- A page in the cache is not fetched again with code 200, unless the request has both
`no-cache` and `no-store`. -/
def NotRefetched (s : CacheRun) (c : ProxyCall) : Prop :=
  match parseCacheHdrs c.request.headers, s.cache[c.request.uri]?,
    c.handler.fetch c.request.uri c.upstream with
  | some hdrs, some page, some res => Refuses hdrs page c.clock → res.code = Response.ok →
      directive hdrs (str "no-cache") ≠ 0 ∧ directive hdrs (str "no-store") ≠ 0
  | _, _, _ => True

instance (hdrs : StringMap Int) (page : CachedPage) (clock : Clock) :
    Decidable (Refuses hdrs page clock) := by
  unfold Refuses
  infer_instance

instance (s : CacheRun) (c : ProxyCall) : Decidable (NotRefetched s c) := by
  unfold NotRefetched
  split <;> infer_instance

/-- The invariant: what is in the cache is the latest. -/
def Latest (s : CacheRun) : Prop :=
  ∀ (u : Bytes) (page : CachedPage), s.cache[u]? = some page → s.latest[u]? = some page

theorem latest_start : Latest start := by
  intro u page h
  simp [start] at h

/-- One call keeps the invariant. -/
theorem latest_step {s s' : CacheRun} {c : ProxyCall} (hs : Latest s) (hc : NotRefetched s c)
    (hstep : step s c = some s') : Latest s' := by
  obtain ⟨⟨answer, cache'⟩, hrun, rfl⟩ := Option.map_eq_some_iff.mp hstep
  obtain ⟨hdrs, hhdrs⟩ := exists_hdrs hrun
  rw [NotRefetched, hhdrs] at hc
  rcases handleRequest_cases hhdrs hrun with ⟨page, rfl, -, -, rfl⟩ | ⟨rfl, rfl⟩ |
    ⟨res, rfl, hres, hcase⟩
  · exact hs
  · exact hs
  · rw [hres] at hc
    rcases hcase with ⟨hstore, hno, hmem, hcache⟩ | ⟨hstore, -, rfl⟩ | ⟨hstore, hrefuse, hcache⟩
    · -- the page is erased: the condition keeps the fetched one out
      have hallowed : c.allowed = false := (allowed_eq hhdrs).trans (decide_eq_false hstore)
      obtain ⟨page, hpage⟩ := Option.isSome_iff_exists.mp (TreeMap.mem_iff_isSome_getElem?.mp hmem)
      rw [hpage] at hc
      have hcode : res.code ≠ Response.ok := fun hcode => (hc (Or.inr (Or.inl hstore)) hcode).1 hno
      rw [if_neg hcode] at hcache
      subst hcache
      intro u page' hp
      rw [record, hallowed, if_neg fun h => Bool.false_ne_true h.2]
      exact hs u page' (getElem?_of_erase hp)
    · have hallowed : c.allowed = false := (allowed_eq hhdrs).trans (decide_eq_false hstore)
      intro u page' hp
      rw [record, hallowed, if_neg fun h => Bool.false_ne_true h.2]
      exact hs u page' hp
    · have hallowed : c.allowed = true := (allowed_eq hhdrs).trans (decide_eq_true hstore)
      by_cases hcode : res.code = Response.ok
      · -- the URI had no page: the fetched one is stored, and is the latest
        have habsent : c.request.uri ∉ s.cache := by
          intro hmem
          obtain ⟨page, hpage⟩ :=
            Option.isSome_iff_exists.mp (TreeMap.mem_iff_isSome_getElem?.mp hmem)
          rw [hpage] at hc
          exact (hc (hrefuse page hpage) hcode).2 hstore
        rw [if_pos hcode] at hcache
        subst hcache
        intro u page' hp
        dsimp only at hp
        rw [getElem?_storeCache] at hp
        rw [record, if_pos ⟨hcode, hallowed⟩, TreeMap.getElem?_insert]
        by_cases hu : c.request.uri = u
        · subst hu
          rw [if_pos ⟨rfl, habsent⟩] at hp
          rw [if_pos (by simp)]
          exact hp
        · rw [if_neg fun h => hu h.1] at hp
          rw [if_neg (by simpa using hu)]
          exact hs u page' hp
      · rw [if_neg hcode] at hcache
        subst hcache
        intro u page' hp
        rw [record, if_neg fun h => hcode h.1]
        exact hs u page' hp

/-- The invariant makes an answer from the cache coherent. -/
theorem coherent_of_latest {s : CacheRun} (hs : Latest s) (c : ProxyCall) : Coherent s c := by
  intro page cache' hrun
  obtain ⟨hdrs, hhdrs⟩ := exists_hdrs hrun
  rcases handleRequest_cases hhdrs hrun with ⟨page', heq, hpage, -, -⟩ | ⟨heq, -⟩ | ⟨res, heq, -⟩
  · obtain rfl := Answer.useCache.inj heq
    exact hs _ _ hpage
  · cases heq
  · cases heq

/-- **Coherence of a run**: while no page in the cache is fetched again, every answer from
the cache is the latest page, its time included. -/
theorem coherent_run (calls : List ProxyCall)
    (hcalls : ∀ e ∈ Machine.trace step start calls, NotRefetched e.1 e.2) :
    ∀ e ∈ Machine.trace step start calls, Coherent e.1 e.2 := by
  have hlatest := Machine.forall_trace (fun e => NotRefetched e.1 e.2)
    (fun _ _ _ hs hc hstep => latest_step hs hc hstep) latest_start hcalls
  exact fun e he => coherent_of_latest (hlatest e he) e.2

/-- A request for one page with the given Cache-Control header, and the body of the reply. -/
def getPage (cacheControl body : Bytes) : ProxyCall where
  handler := ⟨[], []⟩
  request := ⟨.get, str "http://a/", (∅ : StringMap Bytes).insert (str "Cache-Control") cacheControl,
    [], str "HTTP/1.1"⟩
  clock := ⟨0, 0, 0, 0⟩
  upstream := fun _ => .reply 200 [] body

/-- The theorem at a miss and a hit: the second request gets the page of the first. -/
theorem coherent_hit :
    ∃ s page cache', step start (getPage [] (str "A")) = some s ∧
      (getPage [] (str "B")).run s.cache = some (.useCache page, cache') ∧
      s.latest[str "http://a/"]? = some page := by
  obtain ⟨s, hs⟩ : ∃ s, step start (getPage [] (str "A")) = some s :=
    Option.isSome_iff_exists.mp (by decide +kernel)
  have hhit : (match (step start (getPage [] (str "A"))).bind fun s =>
      (getPage [] (str "B")).run s.cache with
    | some (.useCache _, _) => true
    | _ => false) = true := by decide +kernel
  rw [hs, Option.bind_some] at hhit
  split at hhit
  · next page cache' hrun =>
    have hall := coherent_run [getPage [] (str "A"), getPage [] (str "B")] (by decide +kernel)
    rw [Machine.trace_some hs] at hall
    exact ⟨s, page, cache', hs, hrun, hall (s, getPage [] (str "B")) (by simp [Machine.trace]) page
      cache' hrun⟩
  · cases hhit

/-- The bodies agree where an answer from the cache is coherent. -/
theorem body_of_coherent {s : CacheRun} {c : ProxyCall} (hc : Coherent s c) :
    (match c.run s.cache with
      | some (.useCache page, _) =>
        decide ((s.latest[c.request.uri]?).map (fun p => p.response.body) = some page.response.body)
      | _ => true) = true := by
  split
  · next page cache' hrun =>
    rw [hc page cache' hrun]
    exact decide_eq_true rfl
  · rfl

/-- The page forced by `no-cache` is not the one that the third request gets. -/
theorem not_coherent_refetched :
    ¬ ∀ calls : List ProxyCall, ∀ e ∈ Machine.trace step start calls, Coherent e.1 e.2 := by
  intro h
  have hbody := fun e he =>
    body_of_coherent (h [getPage [] (str "A"), getPage (str "no-cache") (str "B"), getPage [] []] e he)
  revert hbody
  decide +kernel

end CacheRun

/-! ## No trace of a response that must not be stored -/

/-- The upstream answers with code 200, and nothing is thrown while its reply is read. -/
def RepliesOk (h : ProxyHandler) (uri : Bytes) (upstream : Bytes → Upstream) : Prop :=
  ∃ dest lines msg, h.destination uri = some dest ∧ upstream dest = .reply Response.ok lines msg ∧
    (h.fetch uri upstream).isSome = true

theorem repliesOk_iff {uri : Bytes} :
    RepliesOk h uri upstream ↔ ∃ res, h.fetch uri upstream = some res ∧ res.code = Response.ok := by
  refine ⟨?_, ?_⟩
  · rintro ⟨dest, lines, msg, hdest, hreply, hsome⟩
    obtain ⟨res, hres⟩ := Option.isSome_iff_exists.mp hsome
    refine ⟨res, hres, ?_⟩
    rw [fetch, hdest] at hres
    dsimp only at hres
    rw [hreply] at hres
    dsimp only at hres
    split at hres
    · cases hres
    · obtain ⟨msg', -, rfl⟩ := Option.map_eq_some_iff.mp hres
      rfl
  · rintro ⟨res, hres, hcode⟩
    have hsome : (h.fetch uri upstream).isSome = true := by rw [hres, Option.isSome_some]
    rw [fetch] at hres
    split at hres
    · cases hres
    · next dest hdest =>
      split at hres
      · next code lines msg hreply =>
        split at hres
        · cases hres
        · obtain ⟨msg', -, rfl⟩ := Option.map_eq_some_iff.mp hres
          obtain rfl : code = Response.ok := hcode
          exact ⟨dest, lines, msg, hdest, hreply, hsome⟩
      · cases hres
        exact absurd hcode (by decide)

/-- **When `no-store` leaves no trace**: every page in the cache after the request was there
before it, whatever the clock says, unless a page for the URI was present, the request has
no `no-cache`, and the upstream replied with code 200. -/
theorem no_store_iff (h : ProxyHandler) (cache : Cache) (upstream : Bytes → Upstream)
    {request : Request} {hdrs : StringMap Int} (hhdrs : parseCacheHdrs request.headers = some hdrs)
    (hstore : directive hdrs (str "no-store") ≠ 0) :
    (∀ clock answer cache', h.handleRequest cache clock upstream request = some (answer, cache') →
      ∀ (u : Bytes) (page : CachedPage), cache'[u]? = some page → cache[u]? = some page) ↔
    ¬ (request.uri ∈ cache ∧ directive hdrs (str "no-cache") = 0 ∧
      RepliesOk h request.uri upstream) := by
  refine ⟨?_, fun hcond clock answer cache' hreq => ?_⟩
  · rintro hall ⟨hmem, hno, hok⟩
    obtain ⟨res, hres, hcode⟩ := repliesOk_iff.mp hok
    obtain ⟨page, hpage⟩ := Option.isSome_iff_exists.mp (TreeMap.mem_iff_isSome_getElem?.mp hmem)
    -- a clock that tells the two pages apart
    let clock : Clock := ⟨0, 0, 0, page.timeStart + 1⟩
    have hv : decide (directive hdrs (str "no-cache") ≠ 0) = false := decide_eq_false (not_not.mpr hno)
    have hd := cacheControl_some hdrs clock hv hpage
    rw [if_pos hstore] at hd
    have hreq : h.handleRequest cache clock upstream request = _ := handleRequest_fetch hhdrs hd rfl rfl
    rw [hres, Option.map_some, if_pos ⟨rfl, hcode⟩] at hreq
    have hnew : (storeCache (cache.erase request.uri) request.uri res clock.store)[request.uri]? =
        some ⟨res, clock.store, oneMin⟩ := by
      rw [getElem?_storeCache, if_pos ⟨rfl, by simp⟩]
    have hold := hall clock _ _ hreq _ _ hnew
    rw [hpage] at hold
    have htime : page.timeStart = page.timeStart + 1 :=
      congrArg CachedPage.timeStart (Option.some.inj hold)
    omega
  · rcases handleRequest_cases hhdrs hreq with ⟨page, -, -, -, rfl⟩ | ⟨-, rfl⟩ |
      ⟨res, -, hres, hcase⟩
    · exact fun _ _ hp => hp
    · exact fun _ _ hp => hp
    · rcases hcase with ⟨-, hno, hmem, hcache⟩ | ⟨-, -, rfl⟩ | ⟨hzero, -⟩
      · have hcode : res.code ≠ Response.ok := fun hcode =>
          hcond ⟨hmem, hno, repliesOk_iff.mpr ⟨res, hres, hcode⟩⟩
        rw [if_neg hcode] at hcache
        subst hcache
        exact fun _ _ hp => getElem?_of_erase hp
      · exact fun _ _ hp => hp
      · exact absurd hzero hstore

/-- A cache that holds one page. -/
def onePage : Cache := storeCache ∅ (str "http://a/") ⟨200, ∅, str "A", 0⟩ 0

/-- The request that must leave no trace. -/
def noStoreRequest : Request := (CacheRun.getPage (str "no-store") []).request

theorem noStoreRequest_hdrs : ∃ hdrs, parseCacheHdrs noStoreRequest.headers = some hdrs ∧
    directive hdrs (str "no-store") ≠ 0 := by
  have hval : (parseCacheHdrs noStoreRequest.headers).map (fun m => directive m (str "no-store")) =
      some 1 := by decide +kernel
  obtain ⟨hdrs, hhdrs, hone⟩ := Option.map_eq_some_iff.mp hval
  exact ⟨hdrs, hhdrs, by rw [hone]; decide⟩

/-- The theorem at a page that is present when the upstream fails. -/
theorem no_store_failed :
    ∃ hdrs, parseCacheHdrs noStoreRequest.headers = some hdrs ∧
      ∀ clock answer cache', handleRequest ⟨[], []⟩ onePage clock (fun _ => .failed) noStoreRequest =
        some (answer, cache') →
      ∀ (u : Bytes) (page : CachedPage), cache'[u]? = some page → onePage[u]? = some page := by
  obtain ⟨hdrs, hhdrs, hstore⟩ := noStoreRequest_hdrs
  refine ⟨hdrs, hhdrs, (no_store_iff ⟨[], []⟩ onePage _ hhdrs hstore).mpr ?_⟩
  rintro ⟨-, -, dest, lines, msg, -, hreply, -⟩
  cases hreply

/-- A new page takes the place of the one that was erased. -/
theorem no_store_leaves_page :
    ¬ ∀ (h : ProxyHandler) (cache : Cache) (upstream : Bytes → Upstream) (request : Request)
      (hdrs : StringMap Int), parseCacheHdrs request.headers = some hdrs →
      directive hdrs (str "no-store") ≠ 0 → ∀ clock answer cache',
      h.handleRequest cache clock upstream request = some (answer, cache') →
      ∀ (u : Bytes) (page : CachedPage), cache'[u]? = some page → cache[u]? = some page := by
  intro hall
  obtain ⟨hdrs, hhdrs, hstore⟩ := noStoreRequest_hdrs
  have hnew : ((handleRequest ⟨[], []⟩ onePage ⟨0, 0, 0, 0⟩ (fun _ => .reply 200 [] (str "B"))
      noStoreRequest).bind fun out => out.2[str "http://a/"]?).map (fun p => p.response.body) =
        some (str "B") := by decide +kernel
  obtain ⟨page, hpage, hB⟩ := Option.map_eq_some_iff.mp hnew
  obtain ⟨⟨answer, cache'⟩, hreq, hpage⟩ := Option.bind_eq_some_iff.mp hpage
  have hold := hall _ _ _ _ _ hhdrs hstore _ _ _ hreq _ _ hpage
  have hA : (onePage[str "http://a/"]?).map (fun p => p.response.body) = some (str "A") := by
    decide
  rw [hold, Option.map_some, hB] at hA
  exact absurd hA (by decide)

end ProxyHandler

end LowKeyWebServer
