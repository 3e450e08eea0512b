import LowKeyWebServer.ProxySafety

/-!
# The curl handles of the proxy

`ProxyHandler::handleRequest` with its calls of curl one by one, and the number of handles
that `curl_easy_init` has returned and `curl_easy_cleanup` has not yet taken. Forgetting the
handles gives `ProxyHandler.handleRequest` (`forget_handleRequest`).

`live_run` says in which runs that number stays what it was: a handle is kept by every
request that is answered before the upstream is asked.
-/

namespace LowKeyWebServer

/-! ## Curl -/

/-- A `CURLcode`. -/
abbrev CurlCode : Type := Int

/-- `CURLE_OK`. -/
def curleOk : CurlCode := 0

/-- A transfer, as `curl_easy_perform` leaves it. -/
structure Transfer : Type where
  /-- what `curl_easy_perform` returns -/
  result : CurlCode
  /-- the lines passed to `header_callback` -/
  lines : List Bytes
  /-- what `write_callback` has collected -/
  msg : Bytes
  /-- `response_code` after `curl_easy_getinfo` -/
  responseCode : Int

/-- The outcomes of the calls of curl during one request. -/
structure Curl : Type where
  /-- whether `curl_easy_init` returns a handle, not a null pointer -/
  handle : Bool
  /-- of `CURLOPT_URL`, for a destination -/
  setUrl : Bytes → CurlCode
  /-- of `CURLOPT_FOLLOWLOCATION` -/
  setFollowLocation : CurlCode
  /-- of `CURLOPT_MAXREDIRS` -/
  setMaxRedirs : CurlCode
  /-- of `CURLOPT_TIMEOUT` -/
  setTimeout : CurlCode
  /-- the transfer from a destination -/
  perform : Bytes → Transfer

namespace Curl

/-- `res.code_` after the four options whose outcome is looked at. -/
def setOptions (curl : Curl) (dest : Bytes) : Int :=
  let code := Response.ok
  let code := if curl.setUrl dest ≠ curleOk then Response.internalServerError else code
  let code := if curl.setFollowLocation ≠ curleOk then Response.internalServerError else code
  let code := if curl.setMaxRedirs ≠ curleOk then Response.internalServerError else code
  if curl.setTimeout ≠ curleOk then Response.internalServerError else code

/-- The outcomes as one. Lines that make `header_callback` throw do so in a failed transfer too. -/
def upstream (curl : Curl) (dest : Bytes) : Upstream :=
  let transfer := curl.perform dest
  if curl.handle = false then .noCurl
  else if curl.setOptions dest ≠ Response.ok then .setoptError
  else if transfer.result = curleOk ∨ transfer.lines.foldlM headerCallback ∅ = none then
    .reply transfer.responseCode transfer.lines transfer.msg
  else .failed

theorem setOptions_eq (curl : Curl) (dest : Bytes) :
    curl.setOptions dest = Response.ok ∨ curl.setOptions dest = Response.internalServerError := by
  rw [setOptions]
  repeat' split
  all_goals simp

end Curl

/-- A call of `ProxyHandler::handleRequest`, with what it reads from outside. -/
structure CurlCall : Type where
  /-- the handler that is called -/
  handler : ProxyHandler
  /-- the request -/
  request : Request
  /-- the readings of `time(0)` -/
  clock : Clock
  /-- the outcomes of the calls of curl -/
  curl : Curl

/-- The call as a visit, without files. -/
def CurlCall.visit (c : CurlCall) : Visit := ⟨c.request, ⟨[], fun _ => none⟩, c.clock, c.curl.upstream⟩

namespace ProxyHandler

/-! ## Handling a request, with its handle -/

/-- What is answered when there is no reply. -/
def failedResponse (code : Int) : Response := { code, headers := ∅, body := [], srcType := 0 }

/-- What stands between `if (curl)` and `curl_easy_cleanup`. -/
def transfer (h : ProxyHandler) (curl : Curl) (dest : Bytes) : Option Response :=
  if curl.setOptions dest = Response.ok then
    let transfer := curl.perform dest
    match transfer.lines.foldlM headerCallback ∅ with
    | none => none
    | some headerData =>
      if transfer.result = curleOk then
        let edited :=
          match headerData[str "Content-Type"]? with
          | some contentType =>
            if contains (str "text/html") contentType then h.parseHtmlBody transfer.msg
            else some transfer.msg
          | none => some transfer.msg
        edited.map fun editedMsg =>
          { code := transfer.responseCode, body := editedMsg, srcType := 0,
            headers := fetchedHeaders headerData editedMsg.length }
      else some (failedResponse Response.internalServerError)
  else some (failedResponse (curl.setOptions dest))

/-- `if (curl)`, with the number of handles. -/
def fetchLive (h : ProxyHandler) (curl : Curl) (live : Nat) (dest : Bytes) : Option (Response × Nat) :=
  -- `curl_easy_cleanup` on the way out
  if curl.handle then (h.transfer curl dest).map fun res => (res, live - 1)
  else some (failedResponse Response.internalServerError, live)

/-- `ProxyHandler::handleRequest`: the answer, `cached_pages` and the number of handles. -/
def handleRequestLive (h : ProxyHandler) (live : Nat) (cache : Cache) (clock : Clock) (curl : Curl)
    (request : Request) : Option (Answer × Cache × Nat) :=
  -- `curl_easy_init` comes first
  let live := if curl.handle then live + 1 else live
  match parseCacheHdrs request.headers with
  | none => none
  | some hdrs =>
    let mustValidate := decide (directive hdrs (str "no-cache") ≠ 0)
    let d := cacheControl cache hdrs request.uri mustValidate clock
    -- the two early returns
    if d.canUse then d.cache[request.uri]?.map fun page => (.useCache page, d.cache, live)
    else if d.cacheOnly then some (.noCache, d.cache, live)
    else
      match h.destination request.uri with
      | none => none
      | some dest =>
        match h.fetchLive curl live dest with
        | none => none
        | some (res, live) =>
          if d.shouldCache ∧ res.code = Response.ok then
            some (.fetched res, storeCache d.cache request.uri res clock.store, live)
          else some (.fetched res, d.cache, live)

variable {h : ProxyHandler} {curl : Curl} {dest uri : Bytes} {live live' : Nat} {res : Response}

/-- The transfer, or its absence, is what `fetch` makes of the outcomes. -/
theorem fetch_upstream (hdest : h.destination uri = some dest) :
    h.fetch uri curl.upstream =
      if curl.handle then h.transfer curl dest
      else some (failedResponse Response.internalServerError) := by
  rw [fetch, hdest]
  dsimp only
  rw [Curl.upstream, transfer]
  cases curl.handle with
  | false => rfl
  | true =>
    rw [if_neg (by simp), if_pos rfl]
    by_cases hset : curl.setOptions dest = Response.ok
    · rw [if_neg (not_not.mpr hset), if_pos hset]
      rcases hlines : (curl.perform dest).lines.foldlM headerCallback ∅ with - | headerData
      · rw [if_pos (Or.inr rfl)]
        dsimp only
        rw [hlines]
      · by_cases hok : (curl.perform dest).result = curleOk
        · rw [if_pos (Or.inl hok)]
          dsimp only
          rw [hlines]
          dsimp only
          rw [if_pos hok]
          rfl
        · rw [if_neg (by simp [hok])]
          dsimp only
          rw [hlines]
          dsimp only
          rw [if_neg hok]
          rfl
    · rw [if_pos hset, if_neg hset, ((curl.setOptions_eq dest).resolve_left hset)]
      rfl

/-- **Without the handles** it is `handleRequest`. -/
theorem forget_handleRequest (h : ProxyHandler) (live : Nat) (cache : Cache) (clock : Clock)
    (curl : Curl) (request : Request) :
    (h.handleRequestLive live cache clock curl request).map (fun out => (out.1, out.2.1)) =
      h.handleRequest cache clock curl.upstream request := by
  rw [handleRequestLive, handleRequest]
  rcases parseCacheHdrs request.headers with - | hdrs
  · rfl
  · dsimp only
    generalize cacheControl cache hdrs request.uri _ clock = d
    split
    · rw [Option.map_map]
      rfl
    · split
      · rfl
      · rcases hdest : h.destination request.uri with - | dest
        · rw [fetch, hdest]
          rfl
        · rw [fetch_upstream hdest]
          dsimp only
          by_cases hcurl : curl.handle = true
          · simp only [fetchLive, if_pos hcurl]
            rcases h.transfer curl dest with - | res
            · rfl
            · dsimp only [Option.map_some]
              split <;> rfl
          · simp only [fetchLive, if_neg hcurl]
            split <;> rfl

/-- The handle that was taken is given back. -/
theorem live_fetchLive
    (hfetch : h.fetchLive curl (if curl.handle then live + 1 else live) dest = some (res, live')) :
    live' = live := by
  rw [fetchLive] at hfetch
  split at hfetch
  · obtain ⟨res', -, heq⟩ := Option.map_eq_some_iff.mp hfetch
    obtain ⟨-, rfl⟩ := Prod.mk.inj heq
    exact Nat.add_sub_cancel live 1
  · exact (Prod.mk.inj (Option.some.inj hfetch)).2.symm

end ProxyHandler

/-! ## Runs -/

/-- The handles and the cache between two requests. -/
structure CurlRun : Type where
  /-- the results of `curl_easy_init` not yet passed to `curl_easy_cleanup` -/
  live : Nat
  /-- `cached_pages` -/
  cache : Cache

namespace CurlRun

open ProxyHandler

/-- Before the first request. -/
def start : CurlRun := ⟨0, ∅⟩

/-- One call. -/
def step (s : CurlRun) (c : CurlCall) : Option CurlRun :=
  (c.handler.handleRequestLive s.live s.cache c.clock c.curl c.request).map fun out =>
    ⟨out.2.2, out.2.1⟩

/-- The cache, without records. -/
def history (s : CurlRun) : History := ⟨[], s.cache⟩

/-- There is no handle to close, or the request gets as far as the upstream: no page is used for
it, and it does not only want one. -/
def Closes (s : CurlRun) (c : CurlCall) : Prop :=
  c.curl.handle = false ∨ ¬ UsesCache s.history c.visit ∧ ¬ LacksCache s.history c.visit

variable {s s' : CurlRun} {c : CurlCall}

/-- An early return keeps the handle. -/
theorem live_early (hreturn : ¬ (¬ UsesCache s.history c.visit ∧ ¬ LacksCache s.history c.visit)) :
    (Closes s c ∧ (if c.curl.handle then s.live + 1 else s.live) = s.live) ∨
      (¬ Closes s c ∧ (if c.curl.handle then s.live + 1 else s.live) = s.live + 1) := by
  rw [Closes, or_iff_left hreturn]
  cases c.curl.handle with
  | false => exact Or.inl ⟨rfl, rfl⟩
  | true => exact Or.inr ⟨Bool.true_eq_false_eq_False, rfl⟩

/-- **What one call does with its handle**: it is closed, or kept. -/
theorem live_step (hstep : step s c = some s') :
    (Closes s c ∧ s'.live = s.live) ∨ (¬ Closes s c ∧ s'.live = s.live + 1) := by
  obtain ⟨⟨answer, cache', live'⟩, hrun, rfl⟩ := Option.map_eq_some_iff.mp hstep
  rw [handleRequestLive] at hrun
  dsimp only at hrun ⊢
  split at hrun
  · cases hrun
  · next hdrs hhdrs =>
    obtain ⟨huse, honly⟩ := cacheControl_iff (s := s.history) (v := c.visit) hhdrs rfl
    split at hrun
    · next hcan =>
      obtain ⟨page, -, heq⟩ := Option.map_eq_some_iff.mp hrun
      obtain rfl := (Prod.mk.inj (Prod.mk.inj heq).2).2
      exact live_early fun hno => hno.1 (huse.mp hcan)
    · next hcan =>
      split at hrun
      · next hcached =>
        obtain rfl := (Prod.mk.inj (Prod.mk.inj (Option.some.inj hrun)).2).2
        exact live_early fun hno => hno.2 (honly.mp hcached)
      · next hcached =>
        refine Or.inl ⟨Or.inr ⟨fun hu => hcan (huse.mpr hu), fun hl => hcached (honly.mpr hl)⟩, ?_⟩
        split at hrun
        · cases hrun
        · next dest hdest =>
          split at hrun
          · cases hrun
          · next res live hfetch =>
            obtain rfl := live_fetchLive hfetch
            split at hrun
            · exact (Prod.mk.inj (Prod.mk.inj (Option.some.inj hrun)).2).2.symm
            · exact (Prod.mk.inj (Prod.mk.inj (Option.some.inj hrun)).2).2.symm

/-- A call that keeps its handle returns. -/
theorem step_of_not_closes (hcloses : ¬ Closes s c) : ∃ s', step s c = some s' := by
  have hreq : ∃ out, c.handler.handleRequest s.cache c.clock c.curl.upstream c.request = some out := by
    rw [Closes, not_or, not_and_or, not_not, not_not] at hcloses
    rcases hcloses.2 with ⟨hdrs, page, hhdrs, hpage, huse⟩ | ⟨hdrs, hhdrs, hno, honly, hpage⟩
    · exact ⟨_, handleRequest_use hhdrs hpage huse⟩
    · exact ⟨_, handleRequest_only hhdrs honly hno hpage⟩
  obtain ⟨out, hreq⟩ := hreq
  rw [← forget_handleRequest c.handler s.live] at hreq
  obtain ⟨out', hlive, -⟩ := Option.map_eq_some_iff.mp hreq
  exact ⟨_, by rw [step, hlive, Option.map_some]⟩

/-- One call leaves as many handles as there were exactly when it closes its own. -/
theorem live_step_iff : (∀ s', step s c = some s' → s'.live = s.live) ↔ Closes s c := by
  refine ⟨fun hlive => ?_, fun hcloses s' hstep => ?_⟩
  · by_contra hcloses
    obtain ⟨s', hstep⟩ := step_of_not_closes hcloses
    rcases live_step hstep with ⟨hyes, -⟩ | ⟨-, hmore⟩
    · exact hcloses hyes
    · rw [hlive s' hstep] at hmore
      omega
  · rcases live_step hstep with ⟨-, heq⟩ | ⟨hno, -⟩
    · exact heq
    · exact absurd hcloses hno

/-- **When no handle is lost**: after every request of a run there are as many handles as before
the first, exactly when every request of the run closes its own. -/
theorem live_run (s : CurlRun) (calls : List CurlCall) :
    (∀ e ∈ Machine.trace step s calls, ∀ s', step e.1 e.2 = some s' → s'.live = s.live) ↔
      ∀ e ∈ Machine.trace step s calls, Closes e.1 e.2 := by
  rw [Machine.forall_trace_measure CurlRun.live]
  exact forall_congr' fun e => forall_congr' fun _ => live_step_iff

/-- A reply without headers to every request. -/
def plainReply (body : Bytes) : Curl where
  handle := true
  setUrl := fun _ => curleOk
  setFollowLocation := curleOk
  setMaxRedirs := curleOk
  setTimeout := curleOk
  perform := fun _ => ⟨curleOk, [], body, Response.ok⟩

/-- A request for one page, and a reply. -/
def getPage : CurlCall where
  handler := ⟨[], []⟩
  request := ⟨.get, str "http://a/", ∅, [], str "HTTP/1.1"⟩
  clock := ⟨0, 0, 0, 0⟩
  curl := plainReply (str "A")

/-- The first request closes its handle; the second is answered from the cache, and does not. -/
theorem live_hit : ¬ ∀ (s : CurlRun) (c : CurlCall) (s' : CurlRun), step s c = some s' →
    s'.live = s.live := by
  intro hall
  have hlive : ((step start getPage).bind fun s => step s getPage).map CurlRun.live = some 1 := by
    decide +kernel
  obtain ⟨s', hrun, hone⟩ := Option.map_eq_some_iff.mp hlive
  obtain ⟨s, hfirst, hsecond⟩ := Option.bind_eq_some_iff.mp hrun
  rw [hall s getPage s' hsecond, hall start getPage s hfirst] at hone
  exact absurd hone (by decide)

/-- An answer from the cache keeps a handle, and the cache. -/
theorem step_hit (hcurl : c.curl.handle = true) (huse : UsesCache s.history c.visit) :
    step s c = some ⟨s.live + 1, s.cache⟩ := by
  have hkept : ¬ Closes s c := by
    rw [Closes, hcurl, or_iff_right Bool.true_eq_false_eq_False]
    exact fun hno => hno.1 huse
  obtain ⟨s', hstep⟩ := step_of_not_closes hkept
  obtain ⟨⟨answer, cache', live'⟩, hrun, rfl⟩ := Option.map_eq_some_iff.mp hstep
  -- the cache after the call is that of `handleRequest`
  have hforget := forget_handleRequest c.handler s.live s.cache c.clock c.curl c.request
  obtain ⟨hdrs, page, hhdrs, hpage, hno⟩ := huse
  have hreq : c.handler.handleRequest s.cache c.clock c.curl.upstream c.request =
      some (.useCache page, s.cache) := handleRequest_use hhdrs hpage hno
  rw [hrun, hreq] at hforget
  obtain ⟨-, rfl⟩ := Prod.mk.inj (Option.some.inj hforget)
  rcases live_step hstep with ⟨hcloses, -⟩ | ⟨-, hmore⟩
  · exact absurd hcloses hkept
  · obtain rfl : live' = s.live + 1 := hmore
    exact hstep

/-- **What many hits do**: every answer from the cache keeps one more handle. -/
theorem live_hits (hcurl : c.curl.handle = true) (huse : UsesCache s.history c.visit) (n : Nat) :
    (List.replicate n c).foldlM step s = some ⟨s.live + n, s.cache⟩ := by
  induction n generalizing s with
  | zero => rfl
  | succ n ih =>
    rw [List.replicate_succ, List.foldlM_cons, step_hit hcurl huse, Option.bind_eq_bind,
      Option.bind_some, ih (s := ⟨s.live + 1, s.cache⟩) huse, Nat.add_assoc, Nat.add_comm 1 n]

end CurlRun

end LowKeyWebServer
