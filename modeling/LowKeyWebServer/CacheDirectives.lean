import LowKeyWebServer.CacheCoherence

/-!
# What the Cache-Control directives make of a page

A page is used when it is fit for the age that the client asks for (`checkAge_iff`).

* `only_if_cached_iff`: when an `only-if-cached` request stays away from upstream;
* `expires_run`: when no page is used beyond its lifetime, in a run of requests and ticks
  of the clock.
-/

namespace LowKeyWebServer

open Std

namespace ProxyHandler

variable {h : ProxyHandler} {cache cache' : Cache} {clock : Clock} {upstream : Bytes → Upstream}
  {request : Request} {answer : Answer} {hdrs : StringMap Int}

/-! ## The age of a page -/

/-- The page has not the age that the client asks for. `min-fresh` has the last word: with it
the other two are not looked at. -/
def Unfit (hdrs : StringMap Int) (page : CachedPage) (clock : Clock) : Prop :=
  let maxAge := directive hdrs (str "max-age")
  let maxStale := directive hdrs (str "max-stale")
  let minFresh := directive hdrs (str "min-fresh")
  if minFresh ≠ 0 then page.isFresh minFresh clock.isFresh = false
  else
    (maxAge ≠ 0 ∧ page.isExpired maxAge clock.isExpired = true) ∨
    (maxStale ≠ 0 ∧ page.couldStale maxStale clock.couldStale = false) ∨
    (maxAge ≠ 0 ∧ maxStale ≠ 0 ∧ maxStale < maxAge)

instance (hdrs : StringMap Int) (page : CachedPage) (clock : Clock) :
    Decidable (Unfit hdrs page clock) := by
  unfold Unfit
  infer_instance

/-- **The age checks** of `cache_control`, all branches. -/
theorem checkAge_iff (hdrs : StringMap Int) (page : CachedPage) (clock : Clock) :
    (checkAge hdrs page clock).2 = false ↔ Unfit hdrs page clock := by
  rw [checkAge, Unfit]
  by_cases hfresh : directive hdrs (str "min-fresh") = 0
  · simp only [hfresh, ne_eq, not_true_eq_false, if_false]
    by_cases hage : directive hdrs (str "max-age") = 0
    · by_cases hstale : directive hdrs (str "max-stale") = 0
      · simp [hage, hstale]
      · simp [hage, hstale]
    · by_cases hstale : directive hdrs (str "max-stale") = 0
      · simp [hage, hstale]
      · -- both are given: three ways to refuse the page
        by_cases hle : directive hdrs (str "max-age") > directive hdrs (str "max-stale")
        · simp [hage, hstale, hle]
        · cases page.couldStale (directive hdrs (str "max-stale")) clock.couldStale <;>
            cases page.isExpired (directive hdrs (str "max-age")) clock.isExpired <;>
            simp [hage, hstale, hle]
  · simp [hfresh]

/-- A page that is present is refused for one of three reasons. -/
theorem refuses_iff (hdrs : StringMap Int) (page : CachedPage) (clock : Clock) :
    Refuses hdrs page clock ↔ directive hdrs (str "no-cache") ≠ 0 ∨
      directive hdrs (str "no-store") ≠ 0 ∨ Unfit hdrs page clock := by
  rw [Refuses, checkAge_iff]

/-- A page that is not refused is the answer. -/
theorem handleRequest_use {page : CachedPage} (hhdrs : parseCacheHdrs request.headers = some hdrs)
    (hpage : cache[request.uri]? = some page) (huse : ¬ Refuses hdrs page clock) :
    h.handleRequest cache clock upstream request = some (.useCache page, cache) := by
  simp only [Refuses, not_or, not_not, Bool.not_eq_false] at huse
  obtain ⟨hno, hstore, hage⟩ := huse
  have hd := cacheControl_some hdrs clock (decide_eq_false (not_not.mpr hno)) hpage
  rw [if_neg (not_not.mpr hstore), hage] at hd
  rw [handleRequest, hhdrs]
  dsimp only
  rw [hd, if_pos rfl, hpage, Option.map_some]

/-! ## Only if cached -/

/-- Without a page, an `only-if-cached` request is answered at once. -/
theorem handleRequest_only (hhdrs : parseCacheHdrs request.headers = some hdrs)
    (honly : directive hdrs (str "only-if-cached") ≠ 0) (hno : directive hdrs (str "no-cache") = 0)
    (hpage : cache[request.uri]? = none) :
    h.handleRequest cache clock upstream request = some (.noCache, cache) := by
  have hv : decide (directive hdrs (str "no-cache") ≠ 0) = false := decide_eq_false (not_not.mpr hno)
  have hd : cacheControl cache hdrs request.uri false clock = _ :=
    cacheControl_none hdrs clock (Or.inr hpage)
  rw [decide_eq_true honly, Bool.not_false, Bool.and_true] at hd
  rw [handleRequest, hhdrs]
  dsimp only
  rw [hv, hd, if_neg Bool.false_ne_true, if_pos rfl]

/-- Only an `only-if-cached` request without a page gets `no_cache()`. -/
theorem noCache_inv (hhdrs : parseCacheHdrs request.headers = some hdrs)
    (hreq : h.handleRequest cache clock upstream request = some (.noCache, cache')) :
    directive hdrs (str "no-cache") = 0 ∧ directive hdrs (str "only-if-cached") ≠ 0 ∧
      cache[request.uri]? = none := by
  have hfetched : ∀ (f : Response → Answer × Cache), (∀ res, (f res).1 ≠ .noCache) →
      (h.fetch request.uri upstream).map f ≠ some (.noCache, cache') := by
    intro f hf heq
    obtain ⟨res, -, hres⟩ := Option.map_eq_some_iff.mp heq
    exact hf res (congrArg Prod.fst hres)
  by_cases hno : directive hdrs (str "no-cache") = 0
  · have hv : decide (directive hdrs (str "no-cache") ≠ 0) = false := decide_eq_false (not_not.mpr hno)
    rcases hpage : cache[request.uri]? with - | page
    · refine ⟨hno, fun honly => ?_, rfl⟩
      have hd : cacheControl cache hdrs request.uri
          (decide (directive hdrs (str "no-cache") ≠ 0)) clock = _ :=
        cacheControl_none hdrs clock (Or.inr hpage)
      rw [handleRequest_fetch hhdrs hd rfl (by simp [honly])] at hreq
      exact absurd hreq (hfetched _ fun _ heq => by cases heq)
    · -- a page is present: `cache_only` stays false
      exfalso
      have hd := cacheControl_some hdrs clock hv hpage
      by_cases huse : Refuses hdrs page clock
      · rw [handleRequest_fetch hhdrs hd] at hreq
        · exact hfetched _ (fun _ heq => by cases heq) hreq
        · rcases huse with hc | hs | ha
          · exact absurd hno hc
          · rw [if_pos hs]
          · split
            · rfl
            · exact ha
        · split <;> rfl
      · rw [handleRequest_use hhdrs hpage huse] at hreq
        cases hreq
  · exfalso
    have hd : cacheControl cache hdrs request.uri
        (decide (directive hdrs (str "no-cache") ≠ 0)) clock = _ :=
      cacheControl_none hdrs clock (Or.inl (decide_eq_true hno))
    rw [handleRequest_fetch hhdrs hd rfl (by simp [hno])] at hreq
    exact hfetched _ (fun _ heq => by cases heq) hreq

/-- The request is answered with the cached page, or with `gateway_timeout`. -/
def StaysAway (h : ProxyHandler) (cache : Cache) (clock : Clock) (upstream : Bytes → Upstream)
    (request : Request) : Prop :=
  ∃ answer cache', h.handleRequest cache clock upstream request = some (answer, cache') ∧
    (answer = .noCache ∨ ∃ page, cache[request.uri]? = some page ∧ answer = .useCache page)

/-- **When `only-if-cached` never goes upstream**: a page that is present is fit for use, and
the request has no `no-store`. -/
theorem only_if_cached_iff (h : ProxyHandler) (cache : Cache) (clock : Clock)
    (upstream : Bytes → Upstream) {request : Request} {hdrs : StringMap Int}
    (hhdrs : parseCacheHdrs request.headers = some hdrs)
    (honly : directive hdrs (str "only-if-cached") ≠ 0) (hno : directive hdrs (str "no-cache") = 0) :
    StaysAway h cache clock upstream request ↔
      ∀ page, cache[request.uri]? = some page →
        directive hdrs (str "no-store") = 0 ∧ ¬ Unfit hdrs page clock := by
  have hrefuses : ∀ page, ¬ Refuses hdrs page clock ↔
      directive hdrs (str "no-store") = 0 ∧ ¬ Unfit hdrs page clock := by
    intro page
    rw [refuses_iff, hno]
    simp
  simp only [← hrefuses]
  rcases hpage : cache[request.uri]? with - | page
  · refine ⟨fun _ page hp => ?_, fun _ => ?_⟩
    · cases hp
    · exact ⟨_, _, handleRequest_only hhdrs honly hno hpage, Or.inl rfl⟩
  · refine ⟨?_, fun huse => ?_⟩
    · rintro ⟨answer, cache', hreq, hanswer⟩ page' hp
      obtain rfl := Option.some.inj hp
      rcases handleRequest_cases hhdrs hreq with ⟨page', -, hpage', huse, -⟩ | ⟨rfl, -⟩ |
        ⟨res, rfl, -⟩
      · obtain rfl := Option.some.inj (hpage.symm.trans hpage')
        exact huse
      · have hnone := (noCache_inv hhdrs hreq).2.2
        rw [hpage] at hnone
        cases hnone
      · rcases hanswer with hanswer | ⟨page', -, hanswer⟩ <;> cases hanswer
    · exact ⟨_, _, handleRequest_use hhdrs hpage (huse page rfl), Or.inr ⟨page, hpage, rfl⟩⟩

/-- A request for one page that only wants the cached version. -/
def onlyIfCached (more : Bytes) : Request :=
  (CacheRun.getPage (str "only-if-cached" ++ more) []).request

/-- The theorem at a page that is young enough. -/
theorem only_if_cached_young :
    StaysAway ⟨[], []⟩ onePage ⟨5, 5, 5, 5⟩ (fun _ => .failed) (onlyIfCached (str ", max-age=10")) := by
  have hval : (parseCacheHdrs (onlyIfCached (str ", max-age=10")).headers).map (fun m =>
      decide (directive m (str "only-if-cached") ≠ 0 ∧ directive m (str "no-cache") = 0 ∧
        ∀ page ∈ onePage[(onlyIfCached []).uri]?,
          directive m (str "no-store") = 0 ∧ ¬ Unfit m page ⟨5, 5, 5, 5⟩)) = some true := by
    decide +kernel
  obtain ⟨hdrs, hhdrs, htrue⟩ := Option.map_eq_some_iff.mp hval
  obtain ⟨honly, hno, hpages⟩ := of_decide_eq_true htrue
  exact (only_if_cached_iff ⟨[], []⟩ onePage ⟨5, 5, 5, 5⟩ _ hhdrs honly hno).mpr hpages

/-- The response has just been fetched. -/
def Answer.isFetched : Answer → Bool
  | .fetched _ => true
  | _ => false

/-- A page that is too old for `max-age` sends the request upstream. -/
theorem only_if_cached_upstream :
    ¬ ∀ (h : ProxyHandler) (cache : Cache) (clock : Clock) (upstream : Bytes → Upstream)
      (request : Request) (hdrs : StringMap Int), parseCacheHdrs request.headers = some hdrs →
      directive hdrs (str "only-if-cached") ≠ 0 → directive hdrs (str "no-cache") = 0 →
      StaysAway h cache clock upstream request := by
  intro hall
  have hval : (parseCacheHdrs (onlyIfCached (str ", max-age=10")).headers).map (fun m =>
      decide (directive m (str "only-if-cached") ≠ 0 ∧ directive m (str "no-cache") = 0)) =
        some true := by
    decide +kernel
  obtain ⟨hdrs, hhdrs, htrue⟩ := Option.map_eq_some_iff.mp hval
  obtain ⟨honly, hno⟩ := of_decide_eq_true htrue
  obtain ⟨answer, cache', hreq, hanswer⟩ :=
    hall ⟨[], []⟩ onePage ⟨11, 11, 11, 11⟩ (fun _ => .failed) _ hdrs hhdrs honly hno
  have hfetched : (handleRequest ⟨[], []⟩ onePage ⟨11, 11, 11, 11⟩ (fun _ => .failed)
      (onlyIfCached (str ", max-age=10"))).map (fun a => a.1.isFetched) = some true := by
    decide +kernel
  rw [hreq] at hfetched
  rcases hanswer with rfl | ⟨page, -, rfl⟩
  · cases hfetched
  · cases hfetched

/-! ## Lifetimes -/

/-- What a request leaves in the cache was there before, or is the page just fetched. -/
theorem getElem?_after {page : CachedPage} {u : Bytes}
    (hreq : h.handleRequest cache clock upstream request = some (answer, cache'))
    (hpage : cache'[u]? = some page) :
    cache[u]? = some page ∨ ∃ res, answer = .fetched res ∧ res.code = Response.ok ∧
      page = ⟨res, clock.store, oneMin⟩ := by
  obtain ⟨hdrs, hhdrs⟩ := exists_hdrs hreq
  have hstored : ∀ (old : Cache) (res : Response),
      (storeCache old request.uri res clock.store)[u]? = some page →
      old[u]? = some page ∨ page = ⟨res, clock.store, oneMin⟩ := by
    intro old res hnew
    rw [getElem?_storeCache] at hnew
    split at hnew
    · exact Or.inr (Option.some.inj hnew).symm
    · exact Or.inl hnew
  rcases handleRequest_cases hhdrs hreq with ⟨-, -, -, -, rfl⟩ | ⟨-, rfl⟩ | ⟨res, rfl, -, hcase⟩
  · exact Or.inl hpage
  · exact Or.inl hpage
  · rcases hcase with ⟨-, -, -, rfl⟩ | ⟨-, -, rfl⟩ | ⟨-, -, rfl⟩
    · split at hpage
      · next hcode =>
        rcases hstored _ _ hpage with hold | hnew
        · exact Or.inl (getElem?_of_erase hold)
        · exact Or.inr ⟨res, rfl, hcode, hnew⟩
      · exact Or.inl (getElem?_of_erase hpage)
    · exact Or.inl hpage
    · split at hpage
      · next hcode =>
        rcases hstored _ _ hpage with hold | hnew
        · exact Or.inl hold
        · exact Or.inr ⟨res, rfl, hcode, hnew⟩
      · exact Or.inl hpage

/-- How many seconds pass before each reading of `time(0)`, and after the last. -/
structure Delays : Type where
  /-- before the one in `couldStale` -/
  couldStale : Nat
  /-- from there to the one in `isExpired` -/
  isExpired : Nat
  /-- from there to the one in `isFresh` -/
  isFresh : Nat
  /-- from there to the one in the constructor of `cached_page` -/
  store : Nat

/-- The readings of a request that arrives at a time. -/
def Delays.readings (d : Delays) (now : Int) : Clock where
  couldStale := now + d.couldStale
  isExpired := now + d.couldStale + d.isExpired
  isFresh := now + d.couldStale + d.isExpired + d.isFresh
  store := now + d.couldStale + d.isExpired + d.isFresh + d.store

/-- What happens to the cache. -/
inductive CacheEvent : Type where
  /-- the clock advances -/
  | tick (seconds : Nat)
  /-- a request is handled -/
  | request (h : ProxyHandler) (request : Request) (delays : Delays) (upstream : Bytes → Upstream)

/-- The cache and the time. -/
structure TimedCache : Type where
  /-- `cached_pages` -/
  cache : Cache
  /-- `time(0)` -/
  now : Int

namespace TimedCache

/-- Before the first request. -/
def start (now : Int) : TimedCache := ⟨∅, now⟩

/-- One event. -/
def step (s : TimedCache) : CacheEvent → Option TimedCache
  | .tick seconds => some { s with now := s.now + seconds }
  | .request h request delays upstream =>
    (h.handleRequest s.cache (delays.readings s.now) upstream request).map fun out =>
      ⟨out.2, (delays.readings s.now).store⟩

/-- How old a page may be for a request: its lifetime, extended by `max-stale`. -/
def lifetime (hdrs : StringMap Int) (page : CachedPage) : Int :=
  page.maxAge + directive hdrs (str "max-stale")

/-- A request is answered from the cache only with a page within its lifetime. -/
def Expires (s : TimedCache) : CacheEvent → Prop
  | .tick _ => True
  | .request h request delays upstream => ∀ hdrs page cache',
      parseCacheHdrs request.headers = some hdrs →
      h.handleRequest s.cache (delays.readings s.now) upstream request =
        some (.useCache page, cache') →
      s.now - page.timeStart ≤ lifetime hdrs page

/-- The request looks at the lifetime of the page, or need not. -/
def HeedsLifetime (hdrs : StringMap Int) (page : CachedPage) (clock : Clock) (now : Int) : Prop :=
  let maxAge := directive hdrs (str "max-age")
  let maxStale := directive hdrs (str "max-stale")
  let minFresh := directive hdrs (str "min-fresh")
  if minFresh ≠ 0 then
    now - page.timeStart ≤ lifetime hdrs page ∨ page.isFresh minFresh clock.isFresh = false
  else if maxStale ≠ 0 then clock.couldStale - page.timeStart - page.maxAge < 2 ^ 31
  else
    now - page.timeStart ≤ lifetime hdrs page ∨
      (maxAge ≠ 0 ∧ page.isExpired maxAge clock.isExpired = true)

/-- Each request for a page that is present, without `no-cache` and `no-store`, heeds the
lifetime of the page. -/
def Heeds (s : TimedCache) : CacheEvent → Prop
  | .tick _ => True
  | .request _ request delays _ =>
    match parseCacheHdrs request.headers, s.cache[request.uri]? with
    | some hdrs, some page =>
      directive hdrs (str "no-cache") = 0 → directive hdrs (str "no-store") = 0 →
        HeedsLifetime hdrs page (delays.readings s.now) s.now
    | _, _ => True

instance (hdrs : StringMap Int) (page : CachedPage) (clock : Clock) (now : Int) :
    Decidable (HeedsLifetime hdrs page clock now) := by
  unfold HeedsLifetime
  infer_instance

instance (s : TimedCache) (e : CacheEvent) : Decidable (Heeds s e) := by
  unfold Heeds
  repeat' split
  all_goals infer_instance

/-- The invariant: every page was stored in the past, with the default lifetime. -/
def Stored (s : TimedCache) : Prop :=
  ∀ (u : Bytes) (page : CachedPage), s.cache[u]? = some page →
    page.timeStart ≤ s.now ∧ page.maxAge = oneMin

theorem stored_start (now : Int) : Stored (start now) := by
  intro u page h
  simp [start] at h

theorem le_store (delays : Delays) (now : Int) : now ≤ (delays.readings now).store := by
  rw [Delays.readings]
  dsimp only
  omega

/-- One event keeps the invariant. -/
theorem stored_step {s s' : TimedCache} {e : CacheEvent} (hs : Stored s) (hstep : step s e = some s') :
    Stored s' := by
  intro u page hpage
  cases e with
  | tick seconds =>
    obtain rfl := Option.some.inj hstep
    obtain ⟨hle, hage⟩ := hs u page hpage
    exact ⟨Int.le_trans hle (Int.le_add_of_nonneg_right (Int.natCast_nonneg _)), hage⟩
  | request h request delays upstream =>
    obtain ⟨⟨answer, cache'⟩, hreq, rfl⟩ := Option.map_eq_some_iff.mp hstep
    rcases getElem?_after hreq hpage with hold | ⟨res, -, -, rfl⟩
    · obtain ⟨hle, hage⟩ := hs u page hold
      exact ⟨Int.le_trans hle (le_store delays s.now), hage⟩
    · exact ⟨Int.le_refl _, rfl⟩

/-- A page that is fit for a request that heeds its lifetime is within it. -/
theorem le_lifetime {s : TimedCache} {page : CachedPage} {delays : Delays}
    (hstart : page.timeStart ≤ s.now) (hage : page.maxAge = oneMin)
    (hheeds : HeedsLifetime hdrs page (delays.readings s.now) s.now)
    (hfit : ¬ Unfit hdrs page (delays.readings s.now)) :
    s.now - page.timeStart ≤ lifetime hdrs page := by
  rw [HeedsLifetime] at hheeds
  rw [Unfit] at hfit
  by_cases hfresh : directive hdrs (str "min-fresh") ≠ 0
  · rw [if_pos hfresh] at hheeds hfit
    exact hheeds.resolve_right hfit
  · rw [if_neg hfresh] at hheeds hfit
    by_cases hstale : directive hdrs (str "max-stale") ≠ 0
    · -- the one comparison with the lifetime, unless the difference is no `int`
      rw [if_pos hstale] at hheeds
      have hcould : page.couldStale (directive hdrs (str "max-stale"))
          (delays.readings s.now).couldStale = true := by
        apply Bool.of_not_eq_false
        exact fun hfalse => hfit (Or.inr (Or.inl ⟨hstale, hfalse⟩))
      have hlt := of_decide_eq_true hcould
      have hread : s.now ≤ (delays.readings s.now).couldStale :=
        Int.le_add_of_nonneg_right (Int.natCast_nonneg _)
      rw [toInt32_eq (by rw [hage, oneMin]; omega) hheeds] at hlt
      rw [lifetime]
      omega
    · rw [if_neg hstale] at hheeds
      exact hheeds.resolve_right fun hexpired => hfit (Or.inl hexpired)

theorem expires_of_heeds {s : TimedCache} {e : CacheEvent} (hs : Stored s) (he : Heeds s e) :
    Expires s e := by
  cases e with
  | tick => trivial
  | request h request delays upstream =>
    intro hdrs page cache' hhdrs hreq
    rcases handleRequest_cases hhdrs hreq with ⟨page', heq, hpage, huse, -⟩ | ⟨heq, -⟩ |
      ⟨res, heq, -⟩
    · obtain rfl := Answer.useCache.inj heq
      obtain ⟨hstart, hage⟩ := hs _ _ hpage
      rw [refuses_iff] at huse
      simp only [not_or, not_not] at huse
      obtain ⟨hno, hstore, hfit⟩ := huse
      rw [Heeds, hhdrs, hpage] at he
      exact le_lifetime hstart hage (he hno hstore) hfit
    · cases heq
    · cases heq

/-- **Cached pages expire**: while every request heeds the lifetime of its page, no request of
a run is answered with a page beyond it. -/
theorem expires_run (now : Int) (events : List CacheEvent)
    (hevents : ∀ e ∈ Machine.trace step (start now) events, Heeds e.1 e.2) :
    ∀ e ∈ Machine.trace step (start now) events, Expires e.1 e.2 := by
  have hstored := Machine.forall_trace (fun e => Heeds e.1 e.2)
    (fun _ _ _ hs _ hstep => stored_step hs hstep) (stored_start now) hevents
  exact fun e he => expires_of_heeds (hstored e he) (hevents e he)

/-- A request for one page that arrives now, and the body of the reply. -/
def getNow (cacheControl body : Bytes) : CacheEvent :=
  .request ⟨[], []⟩ (CacheRun.getPage cacheControl body).request ⟨0, 0, 0, 0⟩
    fun _ => .reply 200 [] body

/-- `Expires`, by running the request. -/
def expires (s : TimedCache) : CacheEvent → Bool
  | .tick _ => true
  | .request h request delays upstream =>
    match parseCacheHdrs request.headers,
      h.handleRequest s.cache (delays.readings s.now) upstream request with
    | some hdrs, some (.useCache page, _) => decide (s.now - page.timeStart ≤ lifetime hdrs page)
    | _, _ => true

theorem expires_iff (s : TimedCache) (e : CacheEvent) : expires s e = true ↔ Expires s e := by
  cases e with
  | tick => exact ⟨fun _ => trivial, fun _ => rfl⟩
  | request h request delays upstream =>
    rw [expires, Expires]
    split
    · next hdrs page _ hhdrs hreq => simp [hhdrs, hreq]
    · next hno => exact ⟨fun _ hdrs page _ hhdrs hreq => absurd hreq (hno hdrs page _ hhdrs), fun _ => rfl⟩

instance (s : TimedCache) (e : CacheEvent) : Decidable (Expires s e) :=
  decidable_of_iff _ (expires_iff s e)

/-- The events of the example: a page is fetched, and asked for again some seconds later. -/
def againAfter (seconds : Nat) : List CacheEvent :=
  [getNow [] (str "A"), .tick seconds, getNow [] (str "B")]

/-- The theorem at a page that is asked for again after half a minute. -/
theorem expires_young :
    ∃ e ∈ Machine.trace step (start 0) (againAfter 30),
      (e.1.now, e.1.cache.size) = (30, 1) ∧ Expires e.1 e.2 := by
  have hall := expires_run 0 (againAfter 30) (by decide +kernel)
  have hlast : ((Machine.trace step (start 0) (againAfter 30)).map fun e =>
      (e.1.now, e.1.cache.size))[2]? = some (30, 1) := by decide +kernel
  rw [List.getElem?_map] at hlast
  obtain ⟨e, he, hage⟩ := Option.map_eq_some_iff.mp hlast
  have hmem := List.mem_of_getElem? he
  exact ⟨e, hmem, hage, hall e hmem⟩

/-- Without directives the page is used after its minute, too. -/
theorem not_expires_late :
    ¬ ∀ now events, ∀ e ∈ Machine.trace step (start now) events, Expires e.1 e.2 := by
  intro h
  have hlate := h 0 (againAfter 61)
  revert hlate
  decide +kernel

end TimedCache

end ProxyHandler

end LowKeyWebServer
