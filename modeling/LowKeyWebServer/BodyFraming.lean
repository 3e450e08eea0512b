import LowKeyWebServer.Handlers
import LowKeyWebServer.Lib.Trace

/-!
# The framing of response bodies

A client that keeps the connection open needs exactly one Content-Length, and the right one
(`Framed`). `framed_run` is the condition on the requests of a run under which every response
has it; pages in the cache have it because they were responses before.
-/

namespace LowKeyWebServer

open Std

/-! ## Content-Length -/

/-- `tolower`. -/
def toLower (c : Byte) : Byte := if 'A' ≤ c ∧ c ≤ 'Z' then c + 32 else c

/-- A spelling of the header's name. -/
def IsContentLength (name : Bytes) : Prop := name.map toLower = str "content-length"

instance : DecidablePred IsContentLength := fun name => by unfold IsContentLength; infer_instance

/-- The headers have exactly one Content-Length, with this value. -/
def OneLength (headers : StringMap Bytes) (value : Bytes) : Prop :=
  ∃ name, IsContentLength name ∧ headers[name]? = some value ∧
    ∀ other ∈ headers, IsContentLength other → other = name

/-- The response's body is as long as its one Content-Length says. -/
def Framed (res : Response) : Prop := OneLength res.headers (str (toString res.body.length))

theorem not_oneLength_empty (value : Bytes) : ¬ OneLength ∅ value := by
  rintro ⟨name, -, hvalue, -⟩
  simp at hvalue

variable {headers : StringMap Bytes} {name value : Bytes}

/-- Another header does not matter. -/
theorem oneLength_insert (hname : ¬ IsContentLength name) (more : Bytes) :
    OneLength (headers.insert name more) value ↔ OneLength headers value := by
  have hne : ∀ other, IsContentLength other → name ≠ other := by
    rintro other hother rfl
    exact hname hother
  refine exists_congr fun key => and_congr_right fun hkey => and_congr ?_ ?_
  · rw [TreeMap.getElem?_insert, if_neg]
    simpa using hne key hkey
  · refine forall_congr' fun other => ⟨fun h hmem => h ?_, fun h hmem hother => ?_⟩
    · rw [TreeMap.mem_insert]
      exact Or.inr hmem
    · refine h ((TreeMap.mem_insert.mp hmem).resolve_left ?_) hother
      simpa using hne other hother

/-- Nor does it when it is erased. -/
theorem oneLength_erase (hname : ¬ IsContentLength name) :
    OneLength (headers.erase name) value ↔ OneLength headers value := by
  have hne : ∀ other, IsContentLength other → name ≠ other := by
    rintro other hother rfl
    exact hname hother
  refine exists_congr fun key => and_congr_right fun hkey => and_congr ?_ ?_
  · rw [TreeMap.getElem?_erase, if_neg]
    simpa using hne key hkey
  · refine forall_congr' fun other => ⟨fun h hmem hother => h ?_ hother, fun h hmem => h ?_⟩
    · rw [TreeMap.mem_erase]
      exact ⟨by simpa using hne other hother, hmem⟩
    · exact (TreeMap.mem_erase.mp hmem).2

/-- A length that is set is the only one if the headers have no other spelling of it. -/
theorem oneLength_insert_self (hname : IsContentLength name) :
    OneLength (headers.insert name value) value ↔
      ∀ other ∈ headers, IsContentLength other → other = name := by
  refine ⟨?_, fun h => ⟨name, hname, by simp, ?_⟩⟩
  · rintro ⟨key, hkey, -, hall⟩ other hmem hother
    have hself := hall name (by simp) hname
    rw [hself]
    exact hall other (TreeMap.mem_insert.mpr (Or.inr hmem)) hother
  · intro other hmem hother
    rcases TreeMap.mem_insert.mp hmem with heq | hmem
    · exact (by simpa using heq : name = other).symm
    · exact h other hmem hother

/-- The one length has the value that was set. -/
theorem OneLength.value_eq {more : Bytes} (hname : IsContentLength name)
    (h : OneLength (headers.insert name more) value) : more = value := by
  obtain ⟨key, -, hvalue, hall⟩ := h
  obtain rfl := hall name (by simp) hname
  simpa using hvalue

/-- The headers of most responses: a type, the length, and the end of the connection. -/
theorem oneLength_type {key kind : Bytes} (hkey : ¬ IsContentLength key) (hname : IsContentLength name) :
    OneLength (((∅ : StringMap Bytes).insert key kind).insert name value) value := by
  rw [oneLength_insert_self hname]
  intro other hmem hother
  obtain rfl : key = other := by simpa [TreeMap.mem_insert] using hmem
  exact absurd hother hkey

theorem isContentLength_upper : IsContentLength (str "Content-Length") := by decide

theorem isContentLength_lower : IsContentLength (str "Content-length") := by decide

theorem not_isContentLength_connection : ¬ IsContentLength (str "Connection") := by decide

theorem not_isContentLength_encoding : ¬ IsContentLength (str "Transfer-Encoding") := by
  decide

theorem not_isContentLength_type : ¬ IsContentLength (str "Content-type") := by decide

theorem not_isContentLength_Type : ¬ IsContentLength (str "Content-Type") := by decide

/-! ## Responses of the handlers -/

theorem framed_plainTextResponse (text : Bytes) (code : Int) :
    Framed (plainTextResponse text code) := by
  apply (oneLength_insert not_isContentLength_connection _).mpr
  exact oneLength_type not_isContentLength_type isContentLength_lower

namespace StaticFileHandler

theorem framed_fileNotFound : Framed fileNotFound := by
  apply (oneLength_insert not_isContentLength_connection _).mpr
  exact oneLength_type not_isContentLength_type isContentLength_lower

theorem framed_getBinaryContent {fs : FileSystem} {filename : Bytes} {srcType : Int} {res : Response}
    (h : getBinaryContent fs filename srcType = some res) : Framed res := by
  rw [getBinaryContent] at h
  split at h
  · obtain rfl := Option.some.inj h
    apply (oneLength_insert not_isContentLength_connection _).mpr
    exact oneLength_type not_isContentLength_type isContentLength_upper
  · cases h
  · obtain ⟨image, -, rfl⟩ := Option.map_eq_some_iff.mp h
    apply (oneLength_insert not_isContentLength_connection _).mpr
    exact oneLength_type not_isContentLength_type isContentLength_upper
  · cases h
  · obtain rfl := Option.some.inj h
    exact framed_fileNotFound

/-- The text of the index page has 36 characters, not 37. -/
theorem not_framed_index {fs : FileSystem} {filePath : Bytes} {res : Response}
    (h : formResponse fs 0 filePath = some res) : ¬ Framed res := by
  rw [formResponse, if_pos rfl] at h
  obtain rfl := Option.some.inj h
  intro hframed
  have hlength := (oneLength_insert not_isContentLength_connection _).mp hframed
  have hvalue := OneLength.value_eq isContentLength_upper hlength
  revert hvalue
  decide

theorem framed_formResponse {fs : FileSystem} {filePath : Bytes} {res : Response}
    (h : formResponse fs 1 filePath = some res) : Framed res := by
  rw [formResponse, if_neg (by decide), if_pos rfl] at h
  split at h
  · obtain rfl := Option.some.inj h
    exact oneLength_type not_isContentLength_Type isContentLength_upper
  · obtain rfl := Option.some.inj h
    exact oneLength_type not_isContentLength_Type isContentLength_upper
  · obtain rfl := Option.some.inj h
    exact oneLength_type not_isContentLength_Type isContentLength_upper
  · cases h
  · obtain rfl := Option.some.inj h
    exact framed_fileNotFound

/-- The static handler's responses are framed but for the index page. -/
theorem handleRequest_framed_iff {locationToRoot : LocationToRoot} {fs : FileSystem} {request : Request}
    {res : Response} (h : handleRequest locationToRoot fs request = some res) :
    Framed res ↔ (configParser request.uri = 0 → replacePath locationToRoot request.uri = []) := by
  have h := answer_of_handleRequest h
  rw [answer] at h
  have hmem := configParser_mem request.uri
  generalize configParser request.uri = srcType at h hmem
  by_cases hpath : replacePath locationToRoot request.uri = []
  · refine iff_of_true ?_ fun _ => hpath
    simp only [hpath, if_true] at h
    split at h
    · exact framed_getBinaryContent h
    · rw [ite_self] at h
      obtain rfl := Option.some.inj h
      exact framed_fileNotFound
  · rw [if_neg hpath] at h
    simp only [hpath, imp_false]
    simp only [List.mem_cons, List.not_mem_nil, or_false] at hmem
    rcases hmem with rfl | rfl | rfl | rfl | rfl | rfl
    · obtain rfl := Option.some.inj h
      exact iff_of_true framed_fileNotFound (by decide)
    · rw [if_neg (by decide), if_neg (by decide)] at h
      exact iff_of_false (not_framed_index h) (by decide)
    · rw [if_neg (by decide), if_neg (by decide)] at h
      exact iff_of_true (framed_formResponse h) (by decide)
    all_goals exact iff_of_true (framed_getBinaryContent h) (by decide)

end StaticFileHandler

/-! ## Responses of the proxy -/

/-- The name of a header line. -/
def headerName (buffer : Bytes) : Option Bytes :=
  let hdr := buffer.takeWhile fun c : Byte => c != '\r' && c != '\n'
  (find (str ":") hdr).map hdr.take

theorem mem_headerCallback {headerMap headerMap' : StringMap Bytes} {buffer : Bytes}
    (h : headerCallback headerMap buffer = some headerMap') (name : Bytes) :
    name ∈ headerMap' ↔ name ∈ headerMap ∨ headerName buffer = some name := by
  rw [headerCallback] at h
  rw [headerName]
  split at h
  · next hcolon =>
    obtain rfl := Option.some.inj h
    simp [hcolon]
  · next colon hcolon =>
    obtain ⟨v, -, rfl⟩ := Option.map_eq_some_iff.mp h
    simp [hcolon, TreeMap.mem_insertIfNew, or_comm]

/-- The names that curl hands over. -/
theorem mem_headerData {lines : List Bytes} {headerMap headerData : StringMap Bytes}
    (h : lines.foldlM headerCallback headerMap = some headerData) (name : Bytes) :
    name ∈ headerData ↔ name ∈ headerMap ∨ ∃ line ∈ lines, headerName line = some name := by
  induction lines generalizing headerMap with
  | nil =>
    obtain rfl := Option.some.inj h
    simp
  | cons line lines ih =>
    rw [List.foldlM_cons] at h
    obtain ⟨headerMap', hline, hlines⟩ := Option.bind_eq_some_iff.mp h
    rw [ih hlines, mem_headerCallback hline, List.exists_mem_cons_iff, or_assoc]

/-- No header line has another spelling of Content-Length. -/
def OneSpelling (lines : List Bytes) : Prop :=
  ∀ line ∈ lines, ∀ name ∈ headerName line, IsContentLength name → name = str "Content-Length"

instance (lines : List Bytes) : Decidable (OneSpelling lines) := by
  unfold OneSpelling
  infer_instance

namespace ProxyHandler

/-- The lines of a reply decide whether the response made from it is framed. -/
theorem oneLength_fetchedHeaders {lines : List Bytes} {headerData : StringMap Bytes}
    (h : lines.foldlM headerCallback ∅ = some headerData) (size : Nat) :
    OneLength (fetchedHeaders headerData size) (str (toString size)) ↔ OneSpelling lines := by
  rw [fetchedHeaders, oneLength_erase not_isContentLength_encoding,
    oneLength_insert not_isContentLength_connection, oneLength_insert_self isContentLength_upper]
  refine ⟨fun hall line hline name hname => ?_, fun hall name hmem => ?_⟩
  · exact hall name ((mem_headerData h name).mpr (Or.inr ⟨line, hline, hname⟩))
  · obtain ⟨line, hline, hname⟩ := ((mem_headerData h name).mp hmem).resolve_left (by simp)
    exact hall line hline name hname

theorem not_framed_noCache : ¬ Framed LowKeyWebServer.noCache := by
  rw [Framed, LowKeyWebServer.noCache, oneLength_insert not_isContentLength_connection,
    oneLength_insert not_isContentLength_type]
  exact not_oneLength_empty _

variable {p : ProxyHandler} {s s' : History} {v : Visit} {res : Response}

/-- A fetched response is framed if the upstream replies with one spelling at most. -/
theorem framed_fetch_iff (hres : p.fetch v.request.uri v.upstream = some res) :
    Framed res ↔ Replies p v fun _ lines => OneSpelling lines := by
  obtain ⟨dest, hdest, hcase⟩ := fetch_cases hres
  rcases hcase with ⟨lines, msg, headerData, hreply, hdata, hheaders⟩ | ⟨hno, -, hheaders⟩
  · rw [Framed, hheaders, oneLength_fetchedHeaders hdata]
    refine ⟨fun hone => ⟨dest, _, lines, msg, hdest, hreply, hone⟩, ?_⟩
    rintro ⟨dest', code, lines', msg', hdest', hreply', hone⟩
    obtain rfl := Option.some.inj (hdest.symm.trans hdest')
    obtain ⟨-, rfl, -⟩ := Upstream.reply.inj (hreply.symm.trans hreply')
    exact hone
  · rw [Framed, hheaders]
    refine iff_of_false (not_oneLength_empty _) ?_
    rintro ⟨dest', code, lines, msg, hdest', hreply, -⟩
    obtain rfl := Option.some.inj (hdest.symm.trans hdest')
    exact hno _ _ _ hreply

end ProxyHandler

/-! ## All handlers -/

/-- The invariant: every page in the cache is framed. -/
def PagesFramed (s : History) : Prop :=
  ∀ (u : Bytes) (page : CachedPage), s.cache[u]? = some page → Framed page.response

namespace Handler

/-- The proxy takes the page from the cache, or it goes upstream and gets a reply with one
spelling of Content-Length at most. -/
def ProxyFrames (p : ProxyHandler) (s : History) (v : Visit) : Prop :=
  ProxyHandler.UsesCache s v ∨
    (¬ ProxyHandler.LacksCache s v ∧ p.Replies v fun _ lines => OneSpelling lines)

/-- The handler is not on one of the paths without the right Content-Length. -/
def FramesBody (locationToRoot : StaticFileHandler.LocationToRoot) (s : History) (v : Visit) :
    Handler → Prop
  | .static => StaticFileHandler.configParser v.request.uri = 0 →
      StaticFileHandler.replacePath locationToRoot v.request.uri = []
  | .proxy p => ProxyFrames p s v
  | .cache => ProxyFrames ⟨[], []⟩ s v
  | _ => True

variable {locationToRoot : StaticFileHandler.LocationToRoot} {s s' : History} {v : Visit}
  {res : Response}

theorem framed_plain {handlerName : Bytes} {code : Int} {text : List Bytes → Bytes}
    (h : plain handlerName code text s v = some (res, s')) : Framed res := by
  obtain ⟨rfl, -⟩ := Prod.mk.inj (Option.some.inj h)
  exact framed_plainTextResponse _ _

theorem proxied_framed_iff {p : ProxyHandler} (hs : PagesFramed s)
    (h : proxied p s v = some (res, s')) : Framed res ↔ ProxyFrames p s v := by
  obtain ⟨⟨answer, cache'⟩, hreq, heq⟩ := Option.map_eq_some_iff.mp h
  obtain ⟨rfl, -⟩ := Prod.mk.inj heq
  rcases ProxyHandler.answer_cases hreq with ⟨huse, -, page, rfl, hpage⟩ | ⟨hnot, hlacks, rfl⟩ |
    ⟨hnot, hlacks, res, rfl, hres⟩
  · exact iff_of_true (hs _ _ hpage) (Or.inl huse)
  · refine iff_of_false ProxyHandler.not_framed_noCache ?_
    rintro (huse | ⟨hno, -⟩)
    · exact hnot huse
    · exact hno hlacks
  · rw [ProxyFrames]
    simp only [hnot, hlacks, not_false_eq_true, true_and, false_or]
    exact ProxyHandler.framed_fetch_iff hres

/-- **One handler's response** is framed exactly on the right paths. -/
theorem handleRequest_framed_iff {h : Handler} (hs : PagesFramed s)
    (hreq : h.handleRequest locationToRoot s v = some (res, s')) :
    Framed res ↔ h.FramesBody locationToRoot s v := by
  cases h with
  | static =>
    obtain ⟨res', hres, heq⟩ := Option.map_eq_some_iff.mp hreq
    obtain ⟨rfl, -⟩ := Prod.mk.inj heq
    exact StaticFileHandler.handleRequest_framed_iff hres
  | proxy p => exact proxied_framed_iff hs hreq
  | cache => exact proxied_framed_iff hs hreq
  | echo | status | error | health =>
    rw [handleRequest] at hreq
    exact iff_of_true (framed_plain hreq) trivial

end Handler

/-! ## Runs -/

namespace Site

/-- The response to a request is framed. -/
def RespondsFramed (s : Site) (v : Visit) : Prop :=
  ∀ res s', s.visit v = some (res, s') → Framed res

/-- A request that is answered is not on one of the paths without the right Content-Length. -/
def FramesBody (s : Site) (v : Visit) : Prop :=
  (s.visit v).isSome = true → ∀ h, s.callee v = some h →
    h.FramesBody s.server.locationToRoot s.history v

theorem respondsFramed_iff {s : Site} (hs : PagesFramed s.history) (v : Visit) :
    RespondsFramed s v ↔ FramesBody s v :=
  forall_visit_iff fun _ _ _ => Handler.handleRequest_framed_iff hs

/-- **When every response is framed**: in a run of any server, every response has the right
Content-Length exactly if every request that is answered stays off the paths without it. -/
theorem framed_run (server : Server) (visits : List Visit) :
    (∀ e ∈ Machine.trace step (new server) visits, RespondsFramed e.1 e.2) ↔
      ∀ e ∈ Machine.trace step (new server) visits, FramesBody e.1 e.2 := by
  refine ⟨fun hall => ?_, fun hall => ?_⟩
  · have hpages := Machine.forall_trace (fun e => RespondsFramed e.1 e.2)
      (fun _ _ _ hs hc hstep => pagesAre_step hs (fun res s' h _ => hc res s' h) hstep)
      (pagesAre_new Framed server) hall
    exact fun e he => (respondsFramed_iff (hpages e he) e.2).mp (hall e he)
  · have hstep : ∀ (s : Site) v s', PagesFramed s.history → FramesBody s v → step s v = some s' →
        PagesFramed s'.history := fun s v _ hs hc =>
      pagesAre_step hs fun res s' h _ => (respondsFramed_iff hs v).mpr hc res s' h
    have hpages :=
      Machine.forall_trace (fun e => FramesBody e.1 e.2) hstep (pagesAre_new Framed server) hall
    exact fun e he => (respondsFramed_iff (hpages e he) e.2).mpr (hall e he)

/-- A server with the files below /files at the location /static. -/
def staticServer : Server where
  handlersTackers := (∅ : StringMap (Option Handler)).insert (Server.quote (str "/static")) (some .static)
  locationToRoot := (∅ : StringMap Bytes).insert (str "/static") (str "/files")

/-- A request for a URI, with no files, no time and no upstream. -/
def visitUri (uri : Bytes) : Visit where
  request := ⟨.get, uri, ∅, [], str "HTTP/1.1"⟩
  fs := ⟨[], fun _ => none⟩
  clock := ⟨0, 0, 0, 0⟩
  upstream := fun _ => .noCurl

/-- The response to a request for an icon says 37. -/
theorem not_framed_icon :
    ¬ ∀ server visits, ∀ e ∈ Machine.trace step (new server) visits, RespondsFramed e.1 e.2 := by
  intro h
  have hsome : ((new staticServer).visit (visitUri (str "/static/favicon.ico"))).isSome = true := by
    decide +kernel
  obtain ⟨⟨res, s'⟩, hvisit⟩ := Option.isSome_iff_exists.mp hsome
  have hframed := h staticServer [visitUri (str "/static/favicon.ico")] _ List.mem_cons_self res s' hvisit
  obtain ⟨handler, hcallee, hreq, -⟩ := visit_eq_some hvisit
  have hstatic : (new staticServer).callee (visitUri (str "/static/favicon.ico")) = some .static := by
    decide +kernel
  obtain rfl := Option.some.inj (hcallee.symm.trans hstatic)
  have hpath := (Handler.handleRequest_framed_iff (pagesAre_new Framed _) hreq).mp hframed
  revert hpath
  rw [Handler.FramesBody]
  decide +kernel

end Site

end LowKeyWebServer
