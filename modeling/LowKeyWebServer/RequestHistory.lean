import LowKeyWebServer.Handlers
import LowKeyWebServer.Lib.Trace

/-!
# The request history

What `StatusHandler::status` is for: one record for each request, with its URI and the status
code of its response. `recorded_run` is the condition on the requests of a run under which it
is so, and `status_length` counts the records then.
-/

namespace LowKeyWebServer

namespace StatusHandler

/-! ## Reading a record back -/

/-- The newline that ends the lines of a record. -/
def newline : Byte := '\n'

/-- The line of the handler, without its newline. -/
def handlerLine (handlerName : Bytes) : Bytes :=
  if handlerName = [] then str "Handler: None" else str "Handler: " ++ handlerName

theorem recordText_eq (uri handlerName code : Bytes) :
    recordText uri handlerName code = str "URI: " ++ (uri ++ newline :: (handlerLine handlerName ++
      newline :: (str "Status Code: " ++ (code ++ str "\n\n")))) := by
  rw [recordText, handlerLine]
  split <;> simp [str, newline]

theorem newline_not_mem_handlerLine {handlerName : Bytes} (h : newline ∉ handlerName) :
    newline ∉ handlerLine handlerName := by
  rw [handlerLine]
  split
  · decide
  · rw [List.mem_append, not_or]
    exact ⟨by decide, h⟩

/-- The last newline of two lines splits them in one way. -/
theorem last_line_unique {s t s' t' : Bytes} (heq : s ++ newline :: t = s' ++ newline :: t')
    (ht : newline ∉ t) (ht' : newline ∉ t') : s = s' := by
  rcases last_split heq ht with hs | ⟨u, -, hu⟩
  · exact hs.symm
  · rw [hu] at ht'
    exact absurd (List.mem_append_right _ List.mem_cons_self) ht'

/-- Records with one code have one URI. -/
theorem uri_of_recordText {uri uri' handlerName handlerName' code : Bytes}
    (hname : newline ∉ handlerName) (hname' : newline ∉ handlerName')
    (h : recordText uri handlerName code = recordText uri' handlerName' code) : uri = uri' := by
  rw [recordText_eq, recordText_eq, List.append_right_inj] at h
  have hlines : uri ++ newline :: handlerLine handlerName ++
        newline :: (str "Status Code: " ++ (code ++ str "\n\n")) =
      uri' ++ newline :: handlerLine handlerName' ++
        newline :: (str "Status Code: " ++ (code ++ str "\n\n")) := by
    simpa using h
  exact last_line_unique (List.append_cancel_right hlines) (newline_not_mem_handlerLine hname)
    (newline_not_mem_handlerLine hname')

/-- Records with one URI have one code. -/
theorem code_of_recordText {uri handlerName handlerName' code code' : Bytes}
    (hname : newline ∉ handlerName) (hname' : newline ∉ handlerName')
    (h : recordText uri handlerName code = recordText uri handlerName' code') : code = code' := by
  rw [recordText_eq, recordText_eq, List.append_right_inj, List.append_right_inj] at h
  have hcode := (first_unique (List.cons.inj h).2 (newline_not_mem_handlerLine hname)
    (newline_not_mem_handlerLine hname')).2
  exact List.append_cancel_right (List.append_cancel_left hcode)

/-! ## Status codes -/

/-- The decimal form of a status code. -/
def decimalCode (code : Int) : Bytes := str (toString code)

/-- The codes that `statusToStr` writes out. -/
def HasText (code : Int) : Prop :=
  code = Response.ok ∨ code = Response.notFound ∨ code = Response.badRequest

instance : DecidablePred HasText := fun code => by unfold HasText; infer_instance

theorem decimalCode_ne_nil (code : Int) : decimalCode code ≠ [] := by
  intro h
  have hempty : (toString code).toList = [] := List.map_eq_nil_iff.mp h
  cases code with
  | ofNat n => exact Nat.repr_ne_empty (String.toList_inj.mp hempty)
  | negSucc n =>
    change ("-" ++ Nat.repr (n + 1)).toList = [] at hempty
    simp at hempty

theorem statusToStr_iff (code : Int) : statusToStr code = decimalCode code ↔ HasText code := by
  refine ⟨fun h => ?_, ?_⟩
  · by_contra hno
    rw [HasText, not_or, not_or] at hno
    rw [statusToStr, if_neg hno.1, if_neg hno.2.1, if_neg hno.2.2] at h
    exact decimalCode_ne_nil code h.symm
  · rintro (rfl | rfl | rfl) <;> decide

end StatusHandler

open StatusHandler

/-! ## One request -/

/-- The history gains exactly one record, with this URI and this status code. -/
def Gains (s s' : History) (uri : Bytes) (code : Int) : Prop :=
  ∃ handlerName, newline ∉ handlerName ∧
    s'.status = s.status ++ [recordText uri handlerName (decimalCode code)]

namespace StaticFileHandler

/-- The static handler writes the URI: it opens no file, or one under the path of the URI. -/
def RecordsUri (locationToRoot : LocationToRoot) (uri : Bytes) : Prop :=
  configParser uri = -1 ∨ replacePath locationToRoot uri = uri ∨
    (replacePath locationToRoot uri = [] ∧ (configParser uri = 0 ∨ configParser uri = 1))

theorem recordedUri_iff (locationToRoot : LocationToRoot) (uri : Bytes) :
    recordedUri locationToRoot uri = uri ↔ RecordsUri locationToRoot uri := by
  rw [recordedUri, RecordsUri]
  have hmem := configParser_mem uri
  generalize configParser uri = srcType at hmem
  simp only [List.mem_cons, List.not_mem_nil, or_false] at hmem
  by_cases hpath : replacePath locationToRoot uri = []
  · rcases hmem with rfl | rfl | rfl | rfl | rfl | rfl <;> simp [hpath]
  · rcases hmem with rfl | rfl | rfl | rfl | rfl | rfl <;> simp [hpath]

theorem code_formResponse {fs : FileSystem} {srcType : Int} {filePath : Bytes} {res : Response}
    (h : formResponse fs srcType filePath = some res) : HasText res.code := by
  rw [formResponse] at h
  split at h
  · obtain rfl := Option.some.inj h
    exact Or.inl rfl
  · split at h
    · split at h
      · obtain rfl := Option.some.inj h
        exact Or.inl rfl
      · obtain rfl := Option.some.inj h
        exact Or.inl rfl
      · obtain rfl := Option.some.inj h
        exact Or.inl rfl
      · cases h
      · obtain rfl := Option.some.inj h
        exact Or.inr (Or.inl rfl)
    · cases h

theorem code_getBinaryContent {fs : FileSystem} {filename : Bytes} {srcType : Int} {res : Response}
    (h : getBinaryContent fs filename srcType = some res) : HasText res.code := by
  rw [getBinaryContent] at h
  split at h
  · obtain rfl := Option.some.inj h
    exact Or.inl rfl
  · cases h
  · obtain ⟨image, -, rfl⟩ := Option.map_eq_some_iff.mp h
    exact Or.inl rfl
  · cases h
  · obtain rfl := Option.some.inj h
    exact Or.inr (Or.inl rfl)

/-- The static handler's status codes have a text. -/
theorem code_handleRequest {locationToRoot : LocationToRoot} {fs : FileSystem} {request : Request}
    {res : Response} (h : handleRequest locationToRoot fs request = some res) : HasText res.code := by
  have h := answer_of_handleRequest h
  rw [answer] at h
  split at h
  · exact code_getBinaryContent h
  · split at h
    · obtain rfl := Option.some.inj h
      exact Or.inr (Or.inl rfl)
    · dsimp only at h
      split at h
      · obtain rfl := Option.some.inj h
        exact Or.inr (Or.inl rfl)
      · exact code_formResponse h

end StaticFileHandler

namespace Handler

/-- The proxy goes upstream, and gets a reply whose code has a text. -/
def ProxyRecords (p : ProxyHandler) (s : History) (v : Visit) : Prop :=
  ¬ ProxyHandler.UsesCache s v ∧ ¬ ProxyHandler.LacksCache s v ∧
    p.Replies v fun code _ => HasText code

/-- The handler is not on one of the paths without the right record. -/
def RecordsVisit (locationToRoot : StaticFileHandler.LocationToRoot) (s : History) (v : Visit) :
    Handler → Prop
  | .static => StaticFileHandler.RecordsUri locationToRoot v.request.uri
  | .proxy p => ProxyRecords p s v
  | .cache => ProxyRecords ⟨[], []⟩ s v
  | _ => True

variable {locationToRoot : StaticFileHandler.LocationToRoot} {s s' : History} {v : Visit}
  {res : Response}

/-- One record is the right one for its URI. -/
theorem gains_uri_iff {uri uri' handlerName : Bytes} {code : Int} (hname : newline ∉ handlerName)
    (hcode : HasText code) (hstatus : s'.status = s.status ++ [addRecord uri' handlerName code]) :
    Gains s s' uri code ↔ uri' = uri := by
  rw [addRecord, (statusToStr_iff code).mpr hcode] at hstatus
  refine ⟨?_, ?_⟩
  · rintro ⟨handlerName', hname', hgains⟩
    have hrecord := List.append_cancel_left (hstatus.symm.trans hgains)
    exact uri_of_recordText hname hname' (List.cons.inj hrecord).1
  · rintro rfl
    exact ⟨handlerName, hname, hstatus⟩

/-- One record is the right one for its code. -/
theorem gains_code_iff {uri handlerName : Bytes} {code code' : Int} (hname : newline ∉ handlerName)
    (hstatus : s'.status = s.status ++ [addRecord uri handlerName code']) :
    Gains s s' uri code ↔ statusToStr code' = decimalCode code := by
  rw [addRecord] at hstatus
  refine ⟨?_, fun hcode => ⟨handlerName, hname, hcode ▸ hstatus⟩⟩
  rintro ⟨handlerName', hname', hgains⟩
  have hrecord := List.append_cancel_left (hstatus.symm.trans hgains)
  exact code_of_recordText hname hname' (List.cons.inj hrecord).1

theorem gains_plain {handlerName : Bytes} {code : Int} {text : List Bytes → Bytes}
    (hname : newline ∉ handlerName) (hcode : HasText code)
    (h : plain handlerName code text s v = some (res, s')) : Gains s s' v.request.uri res.code := by
  obtain ⟨rfl, rfl⟩ := Prod.mk.inj (Option.some.inj h)
  exact (gains_uri_iff hname hcode rfl).mpr rfl

theorem proxied_gains_iff {p : ProxyHandler} (h : proxied p s v = some (res, s')) :
    Gains s s' v.request.uri res.code ↔ ProxyRecords p s v := by
  obtain ⟨⟨answer, cache'⟩, hreq, heq⟩ := Option.map_eq_some_iff.mp h
  obtain ⟨rfl, rfl⟩ := Prod.mk.inj heq
  have hname : newline ∉ str "ProxyHandler" := by decide
  rcases ProxyHandler.answer_cases hreq with ⟨huse, -, page, rfl, -⟩ | ⟨-, hlacks, rfl⟩ |
    ⟨hnot, hlacks, res, rfl, hres⟩
  · -- 304 has no text
    refine iff_of_false (fun hgains => ?_) fun hrecords => hrecords.1 huse
    exact decimalCode_ne_nil _ ((gains_code_iff hname rfl).mp hgains).symm
  · refine iff_of_false ?_ fun hrecords => hrecords.2.1 hlacks
    rintro ⟨handlerName, -, hgains⟩
    have hlength := congrArg List.length hgains
    simp [ProxyHandler.records] at hlength
  · rw [gains_code_iff hname rfl, ProxyRecords]
    simp only [hnot, hlacks, not_false_eq_true, true_and]
    change statusToStr res.code = decimalCode res.code ↔ _
    rw [statusToStr_iff]
    obtain ⟨dest, hdest, ⟨lines, msg, headerData, hreply, -⟩ | ⟨hno, hcode, -⟩⟩ :=
      ProxyHandler.fetch_cases hres
    · refine ⟨fun htext => ⟨dest, _, lines, msg, hdest, hreply, htext⟩, ?_⟩
      rintro ⟨dest', code, lines', msg', hdest', hreply', htext⟩
      obtain rfl := Option.some.inj (hdest.symm.trans hdest')
      obtain ⟨rfl, -⟩ := Upstream.reply.inj (hreply.symm.trans hreply')
      exact htext
    · rw [hcode]
      refine iff_of_false (by decide) ?_
      rintro ⟨dest', code, lines, msg, hdest', hreply, -⟩
      obtain rfl := Option.some.inj (hdest.symm.trans hdest')
      exact hno _ _ _ hreply

/-- **One handler's record** is the right one exactly on the right paths. -/
theorem handleRequest_gains_iff {h : Handler}
    (hreq : h.handleRequest locationToRoot s v = some (res, s')) :
    Gains s s' v.request.uri res.code ↔ h.RecordsVisit locationToRoot s v := by
  cases h with
  | static =>
    obtain ⟨res', hres, heq⟩ := Option.map_eq_some_iff.mp hreq
    obtain ⟨rfl, rfl⟩ := Prod.mk.inj heq
    rw [RecordsVisit, ← StaticFileHandler.recordedUri_iff]
    exact gains_uri_iff (by decide) (StaticFileHandler.code_handleRequest hres) rfl
  | proxy p => exact proxied_gains_iff hreq
  | cache => exact proxied_gains_iff hreq
  | echo | status | error | health =>
    rw [handleRequest] at hreq
    exact iff_of_true (gains_plain (by decide) (by decide) hreq) trivial

end Handler

/-! ## Runs -/

namespace Site

/-- A request that is answered gains its one record. -/
def Recorded (s : Site) (v : Visit) : Prop :=
  ∀ res s', s.visit v = some (res, s') → Gains s.history s'.history v.request.uri res.code

/-- A request that is answered is not on one of the paths without the right record. -/
def RecordsVisit (s : Site) (v : Visit) : Prop :=
  (s.visit v).isSome = true → ∀ h, s.callee v = some h →
    h.RecordsVisit s.server.locationToRoot s.history v

theorem recorded_iff (s : Site) (v : Visit) : Recorded s v ↔ RecordsVisit s v :=
  forall_visit_iff fun _ _ _ => Handler.handleRequest_gains_iff

/-- While every request gains its record, there are as many records as requests. -/
theorem status_length {s s' : Site} {visits : List Visit}
    (hall : ∀ e ∈ Machine.trace step s visits, Recorded e.1 e.2)
    (hrun : visits.foldlM step s = some s') :
    s'.history.status.length = s.history.status.length + visits.length := by
  induction visits generalizing s with
  | nil =>
    obtain rfl := Option.some.inj hrun
    rfl
  | cons v visits ih =>
    rw [List.foldlM_cons] at hrun
    obtain ⟨s₁, hstep, hrun⟩ := Option.bind_eq_some_iff.mp hrun
    rw [Machine.forall_trace_cons] at hall
    obtain ⟨⟨res, s₂⟩, hvisit, rfl⟩ := Option.map_eq_some_iff.mp hstep
    obtain ⟨handlerName, -, hgains⟩ := hall.1 res s₂ hvisit
    have hlength := congrArg List.length hgains
    rw [List.length_append, List.length_singleton] at hlength
    have hrest := ih (hall.2 _ hstep) hrun
    dsimp only at hlength hrest
    rw [List.length_cons]
    omega

/-- **When the history is complete and exact**: in a run of any server, every request gains its
one record exactly if every request that is answered stays off the paths without it. -/
theorem recorded_run (server : Server) (visits : List Visit) :
    (∀ e ∈ Machine.trace step (new server) visits, Recorded e.1 e.2) ↔
      ∀ e ∈ Machine.trace step (new server) visits, RecordsVisit e.1 e.2 := by
  simp only [recorded_iff]

/-- A server whose only location is a proxy. -/
def proxyServer : Server where
  handlersTackers := (∅ : StringMap (Option Handler)).insert (str "\"/\"")
    (some (.proxy ⟨str "/", str "http://a/"⟩))
  locationToRoot := ∅

/-- The failure of the upstream has no text in its record. -/
theorem not_recorded_failure :
    ¬ ∀ server visits, ∀ e ∈ Machine.trace step (new server) visits, Recorded e.1 e.2 := by
  intro h
  let v : Visit := ⟨⟨.get, str "/x", ∅, [], str "HTTP/1.1"⟩, ⟨[], fun _ => none⟩, ⟨0, 0, 0, 0⟩,
    fun _ => .failed⟩
  have hsome : (((new proxyServer).visit v).map fun out => out.1.code) =
      some Response.internalServerError := by
    decide +kernel
  obtain ⟨⟨res, s'⟩, hvisit, hcode⟩ := Option.map_eq_some_iff.mp hsome
  have hgains := h proxyServer [v] _ List.mem_cons_self res s' hvisit
  obtain ⟨handler, hcallee, hreq, -⟩ := visit_eq_some hvisit
  have hproxy : (new proxyServer).callee v = some (.proxy ⟨str "/", str "http://a/"⟩) := by
    decide +kernel
  obtain rfl := Option.some.inj (hcallee.symm.trans hproxy)
  obtain ⟨-, -, dest, code, lines, msg, -, hreply, -⟩ := (Handler.proxied_gains_iff hreq).mp hgains
  cases hreply

end Site

end LowKeyWebServer
