import LowKeyWebServer.Framing
import LowKeyWebServer.Startup

/-!
# A conversation

What a client gets that sends one request after the other, each of them in one read or line by line:
`conversation_run` composes the framing, the parser, the routing and the handlers. Where the handlers
are stateless, its answers are a function of its own requests: the k-th one is the response of the
handler that the config has for the k-th URI, to a request with exactly the components that have been
written down (`RequestText`), whatever the other clients do and whatever has been asked before.
-/

namespace LowKeyWebServer

open RequestParser

namespace Session

/-! ## The four reads of a request -/

theorem handleRead_checked {x : Bytes} (h : Utils.checkRequest x = true) :
    new.handleRead x x.length = (.goodRequest x, new) := by
  rcases handleRead_new x with ⟨-, hread⟩ | ⟨hno, -⟩ | ⟨hno, -⟩ | ⟨hno, -⟩
  · exact hread
  all_goals exact absurd (h.symm.trans hno) Bool.noConfusion

theorem handleRead_opens {x : Bytes} (hno : Utils.checkRequest x = false) (h : OpensRequest x) :
    new.handleRead x x.length = (.handleWrite, ⟨true, x⟩) := by
  rcases handleRead_new x with ⟨hyes, -⟩ | ⟨-, -, hread⟩ | ⟨-, hx, -⟩ | ⟨-, hx, -⟩
  · exact absurd (hno.symm.trans hyes) Bool.noConfusion
  · exact hread
  all_goals exact absurd h hx

theorem handleRead_continues (b : Bytes) {x : Bytes} (h : ContinuesRequest x) :
    handleRead ⟨true, b⟩ x x.length = (.handleWrite, ⟨true, b ++ x⟩) := by
  rcases handleRead_started b x with ⟨hx, -⟩ | ⟨-, hread⟩ | ⟨-, hx, -⟩
  · exact absurd hx h.1
  · exact hread
  · exact absurd h hx

theorem handleRead_crlf (b : Bytes) :
    handleRead ⟨true, b⟩ crlf crlf.length = (.goodRequest (b ++ crlf), new) := by
  rcases handleRead_started b crlf with ⟨-, hread⟩ | ⟨h, -⟩ | ⟨h, -⟩
  · exact hread
  · exact absurd rfl h.1
  · exact absurd rfl h

/-- A read that is a request line, or comes inside a request, leaves the buffer cleared. -/
theorem keepsData_of_line {s : Session} {x : Bytes} {n : Nat}
    (h : s.requestStart = true ∨ Utils.checkRequestLine x = true) :
    ReadState.keepsData s x n = false := by
  rw [ReadState.keepsData]
  split
  · rfl
  · split
    · rfl
    · rw [if_pos (Bool.or_eq_true_iff.mpr h)]

end Session

namespace Service

/-! ## Requests and replies -/

/-- A read that fits into the buffer, with room for a NUL, and has none of its own. -/
def Fits (x : Chunk) : Prop := 0 ∉ x.bytes ∧ x.bytes.length < maxLength

/-- The reads of one request: they are one call for its text, and each of them fits. -/
structure Sends (es : List Input) (t : RequestText) : Prop where
  delivers : Session.Delivers (es.map fun e => e.data.bytes) t.render
  reads : ∀ e ∈ es, Fits e.data

/-- What is written for the reads of a request: the response to the request with these components,
from the handler that the config has for its URI. The last read is the one that is answered. -/
def Replies (configBlocks : List ConfigBlock) (server : Server) (es : List Input)
    (writes : List Dispatcher.Write) : Prop :=
  ∃ (t : RequestText) (e : Input) (handler : Handler) (res : Response) (history : History),
    (es.map fun e => e.data.bytes).flatten = t.render ∧ es.getLast? = some e ∧
    Server.Routed configBlocks t.uri handler ∧
    handler.handleRequest server.locationToRoot ⟨[], ∅⟩
      ⟨t.toRequest, e.outside.fs, e.outside.clock, e.outside.upstream⟩ = some (res, history) ∧
    writes = Dispatcher.dispatch res

/-- A NUL stands behind the first read, whatever else is in the buffer. -/
def EndsFirst (b : Buffer) (es : List Input) : Prop :=
  ∀ e ∈ es.head?, b.data[e.data.bytes.length]? = some 0

/-- A reader with this framing state, ready for these reads. -/
structure At (session : Session) (es : List Input) (r : ReadState) : Prop where
  session : r.session = session
  ends : EndsFirst r.buffer es

variable {e : Input} {es : List Input} {t : RequestText} {s s' : Service} {i : Nat}

/-- A parser of its own extracts the components. -/
theorem requestOf_render (t : RequestText) : requestOf t.render = some t.toRequest := by
  obtain ⟨q, haccepts, hrequest⟩ := accepts_complete 0 t []
  rw [List.append_nil] at haccepts
  rw [requestOf, parse_of_accepts haccepts, Option.map_some, hrequest]

/-! ## One read -/

section Framing

variable {session session' : Session} {r : ReadState} {a : Session.Action} {rest : List Input}

/-- A cleared buffer is ready for any reads that fit. -/
theorem endsFirst_cleared (h : ∀ e ∈ es, Fits e.data) : EndsFirst .cleared es := fun e he =>
  (Buffer.getElem?_cleared _).mpr (h e (List.mem_of_mem_head? he)).2

/-- **One read**, which leaves the buffer cleared. -/
theorem At.read (hr : At session (e :: es) r) (he : Fits e.data)
    (hread : session.handleRead e.data.bytes e.data.bytes.length = (a, session'))
    (hkeeps : ReadState.keepsData session e.data.bytes e.data.bytes.length = false)
    (hrest : ∀ e ∈ rest, Fits e.data) :
    action r e.data = some a ∧ ∃ r', r.step e.data = some r' ∧ At session' rest r' := by
  have hstring : (r.buffer.read e.data).cString = some e.data.bytes :=
    (Buffer.cString_read_iff _ _).mpr ⟨he.1, hr.ends e rfl⟩
  refine ⟨?_, _, by rw [ReadState.step, hstring, Option.map_some], ?_, ?_⟩
  · rw [action, hstring, Option.map_some, hr.session, hread]
  · dsimp only
    rw [hr.session, hread]
  · dsimp only
    rw [hr.session, hkeeps, if_neg Bool.false_ne_true]
    exact endsFirst_cleared hrest

end Framing

/-- A read that is no call yet: nothing is answered, and nothing is handled. -/
theorem collect_step {session session' : Session} {rest : List Input}
    (hr : At session (e :: es) (s.readers e.client)) (he : Fits e.data)
    (hread : session.handleRead e.data.bytes e.data.bytes.length = (.handleWrite, session'))
    (hkeeps : ReadState.keepsData session e.data.bytes e.data.bytes.length = false)
    (hrest : ∀ e ∈ rest, Fits e.data) (hstep : s.step e = some s') :
    s'.site = s.site ∧ s'.answers e.client = s.answers e.client ∧
      At session' rest (s'.readers e.client) := by
  obtain ⟨a, r, out, haction, hreader, hanswer, rfl⟩ := step_eq_some hstep
  obtain ⟨hcall, r', hreader', hr'⟩ := hr.read he hread hkeeps hrest
  obtain rfl := Option.some.inj (haction.symm.trans hcall)
  obtain rfl := Option.some.inj (hreader.symm.trans hreader')
  obtain rfl := Option.some.inj hanswer
  refine ⟨rfl, ?_, ?_⟩
  · dsimp only
    rw [Function.update_self, List.append_nil]
  · dsimp only
    rwa [Function.update_self]

section Run

variable {configBlocks : List ConfigBlock} {server : Server} {rest : List Input}

/-- A read that is a call for the text of a request: the handler of the config answers. -/
theorem call_step {session : Session} {behind : List Input}
    (hstart : Server.start configBlocks = some server) (hst : server.Stateless)
    (hdrift : Server.Drift server s.site.server) (hr : At session (e :: behind) (s.readers e.client))
    (he : Fits e.data)
    (hread : session.handleRead e.data.bytes e.data.bytes.length = (.goodRequest t.render, Session.new))
    (hes : (es.map fun e => e.data.bytes).flatten = t.render) (hlast : es.getLast? = some e)
    (hrest : ∀ e ∈ rest, Fits e.data) (hstep : s.step e = some s') :
    ∃ writes, Replies configBlocks server es writes ∧
      s'.answers e.client = s.answers e.client ++ [writes] ∧
      At Session.new rest (s'.readers e.client) ∧ Server.Drift server s'.site.server := by
  obtain ⟨a, r, out, haction, hreader, hanswer, rfl⟩ := step_eq_some hstep
  obtain ⟨hcall, r', hreader', hr'⟩ :=
    hr.read he hread (Session.keepsData_of_call hread fun h => by cases h) hrest
  obtain rfl := Option.some.inj (haction.symm.trans hcall)
  obtain rfl := Option.some.inj (hreader.symm.trans hreader')
  have hsite := hdrift.trans (drift_answer hanswer)
  rw [answer, requestOf_render, Option.bind_some] at hanswer
  obtain ⟨⟨res, site⟩, hvisit, rfl⟩ := Option.map_eq_some_iff.mp hanswer
  -- the handler of a server that has drifted is that of the config
  obtain ⟨fresh, hfresh, -⟩ := Site.visit_drift (t := Site.new server) hst hdrift hvisit
  obtain ⟨handler, hcallee, hreq, -⟩ := Site.visit_eq_some hfresh
  refine ⟨Dispatcher.dispatch res, ⟨t, e, handler, res, _, hes, hlast,
    (Server.Drift.refl server).routed hstart hcallee, hreq, rfl⟩, ?_, ?_, hsite⟩
  · dsimp only
    rw [Function.update_self]
  · dsimp only
    rwa [Function.update_self]

/-! ## One request -/

/-- The lines in the middle, by induction on them. -/
theorem collect_run (hclient : ∀ e ∈ es, e.client = i) (hreads : ∀ e ∈ es, Fits e.data)
    (hcontinues : ∀ e ∈ es, Session.ContinuesRequest e.data.bytes) {b : Bytes}
    (hr : At ⟨true, b⟩ (es ++ rest) (s.readers i)) (hrest : ∀ e ∈ rest, Fits e.data)
    (hrun : es.foldlM step s = some s') :
    s'.site = s.site ∧ s'.answers i = s.answers i ∧
      At ⟨true, b ++ (es.map fun e => e.data.bytes).flatten⟩ rest (s'.readers i) := by
  induction es generalizing s b with
  | nil =>
    obtain rfl := Option.some.inj hrun
    rw [List.map_nil, List.flatten_nil, List.append_nil]
    exact ⟨rfl, rfl, hr⟩
  | cons e es ih =>
    rw [List.forall_mem_cons] at hclient hreads hcontinues
    obtain ⟨rfl, hclient⟩ := hclient
    rw [List.foldlM_cons] at hrun
    obtain ⟨s₁, hstep, hrun⟩ := Option.bind_eq_some_iff.mp hrun
    have hread := Session.handleRead_continues b hcontinues.1
    have hbehind : ∀ e ∈ es ++ rest, Fits e.data := List.forall_mem_append.mpr ⟨hreads.2, hrest⟩
    obtain ⟨hsite, hanswers, hr₁⟩ :=
      collect_step hr hreads.1 hread (Session.keepsData_of_line (Or.inl rfl)) hbehind hstep
    obtain ⟨hsite', hanswers', hr'⟩ := ih hclient hreads.2 hcontinues.2 hr₁ hrun
    rw [List.map_cons, List.flatten_cons, ← List.append_assoc]
    exact ⟨hsite'.trans hsite, hanswers'.trans hanswers, hr'⟩

/-- The request line, and the lines behind it. -/
theorem opened_run (hclient : ∀ e' ∈ e :: es, e'.client = i) (hreads : ∀ e' ∈ e :: es, Fits e'.data)
    (hno : Utils.checkRequest e.data.bytes = false) (hopens : Session.OpensRequest e.data.bytes)
    (hcontinues : ∀ e ∈ es, Session.ContinuesRequest e.data.bytes)
    (hr : At Session.new (e :: (es ++ rest)) (s.readers i)) (hrest : ∀ e ∈ rest, Fits e.data)
    (hrun : (e :: es).foldlM step s = some s') :
    s'.site = s.site ∧ s'.answers i = s.answers i ∧
      At ⟨true, e.data.bytes ++ (es.map fun e => e.data.bytes).flatten⟩ rest (s'.readers i) := by
  rw [List.forall_mem_cons] at hclient hreads
  obtain ⟨rfl, hclient⟩ := hclient
  rw [List.foldlM_cons] at hrun
  obtain ⟨s₁, hstep, hlines⟩ := Option.bind_eq_some_iff.mp hrun
  have hread := Session.handleRead_opens hno hopens
  have hbehind : ∀ e ∈ es ++ rest, Fits e.data := List.forall_mem_append.mpr ⟨hreads.2, hrest⟩
  obtain ⟨hsite, hanswers, hr₁⟩ :=
    collect_step hr hreads.1 hread (Session.keepsData_of_line (Or.inr hopens.1)) hbehind hstep
  obtain ⟨hsite', hanswers', hr'⟩ := collect_run hclient hreads.2 hcontinues hr₁ hrest hlines
  exact ⟨hsite'.trans hsite, hanswers'.trans hanswers, hr'⟩

/-- **One request**, in one read or line by line. -/
theorem request_run (hstart : Server.start configBlocks = some server) (hst : server.Stateless)
    (hdrift : Server.Drift server s.site.server) (hr : At Session.new (es ++ rest) (s.readers i))
    (hclient : ∀ e ∈ es, e.client = i) (h : Sends es t) (hrest : ∀ e ∈ rest, Fits e.data)
    (hrun : es.foldlM step s = some s') :
    ∃ writes, Replies configBlocks server es writes ∧ s'.answers i = s.answers i ++ [writes] ∧
      At Session.new rest (s'.readers i) ∧ Server.Drift server s'.site.server := by
  obtain ⟨hdelivers, hreads⟩ := h
  generalize hg : (es.map fun e => e.data.bytes) = g at hdelivers
  generalize htext : t.render = text at hdelivers
  cases hdelivers with
  | whole hchecked =>
    obtain ⟨e, rfl, he⟩ := List.map_eq_singleton_iff.mp hg
    obtain rfl := hclient e (List.mem_singleton_self e)
    rw [List.foldlM_cons] at hrun
    obtain ⟨s₁, hstep, hrun⟩ := Option.bind_eq_some_iff.mp hrun
    obtain rfl := Option.some.inj hrun
    have hread : Session.new.handleRead e.data.bytes e.data.bytes.length =
        (.goodRequest t.render, Session.new) := by
      rw [he, htext]
      exact Session.handleRead_checked hchecked
    refine call_step hstart hst hdrift hr (hreads e (List.mem_singleton_self e)) hread ?_ rfl hrest hstep
    rw [List.map_singleton, List.flatten_singleton, he, htext]
  | @lines x ys hno hopens hys =>
    obtain ⟨first, behind, rfl, rfl, hbehind⟩ := List.map_eq_cons_iff.mp hg
    obtain ⟨middle, ends, rfl, rfl, hends⟩ := List.map_eq_append_iff.mp hbehind
    obtain ⟨last, rfl, hlast⟩ := List.map_eq_singleton_iff.mp hends
    rw [← List.cons_append, List.forall_mem_append, List.forall_mem_singleton] at hclient hreads
    obtain ⟨hlines, rfl⟩ := hclient
    rw [← List.cons_append, List.foldlM_append] at hrun
    obtain ⟨s₁, hhead, hempty⟩ := Option.bind_eq_some_iff.mp hrun
    rw [List.foldlM_cons] at hempty
    obtain ⟨s₂, hstep, hnil⟩ := Option.bind_eq_some_iff.mp hempty
    obtain rfl := Option.some.inj hnil
    rw [List.cons_append, List.append_assoc] at hr
    have hrest' : ∀ e ∈ last :: rest, Fits e.data := List.forall_mem_cons.mpr ⟨hreads.2, hrest⟩
    obtain ⟨hsite, hanswers, hr'⟩ :=
      opened_run hlines hreads.1 hno hopens (List.forall_mem_map.mp hys) hr hrest' hhead
    have hend : Session.handleRead ⟨true, first.data.bytes ++ (middle.map fun e => e.data.bytes).flatten⟩
        last.data.bytes last.data.bytes.length = (.goodRequest t.render, Session.new) := by
      rw [hlast, htext]
      exact Session.handleRead_crlf _
    rw [← hsite] at hdrift
    rw [← hanswers]
    refine call_step hstart hst hdrift hr' hreads.2 hend ?_ ?_ hrest hstep
    · rw [hg, htext, List.flatten_cons, List.flatten_append, List.flatten_singleton, List.append_assoc]
    · rw [← List.cons_append, List.getLast?_concat]

/-! ## A client alone -/

/-- **A client alone**: by induction on its requests. -/
theorem talk_run (hstart : Server.start configBlocks = some server) (hst : server.Stateless)
    (hdrift : Server.Drift server s.site.server) {groups : List (List Input)}
    (hr : At Session.new groups.flatten (s.readers i)) (hclient : ∀ e ∈ groups.flatten, e.client = i)
    (hsends : ∀ es ∈ groups, ∃ t, Sends es t) (hrun : groups.flatten.foldlM step s = some s') :
    ∃ replies, s'.answers i = s.answers i ++ replies ∧
      List.Forall₂ (Replies configBlocks server) groups replies := by
  induction groups generalizing s with
  | nil =>
    obtain rfl := Option.some.inj hrun
    exact ⟨[], (List.append_nil _).symm, .nil⟩
  | cons es groups ih =>
    rw [List.flatten_cons, List.forall_mem_append] at hclient
    rw [List.forall_mem_cons] at hsends
    obtain ⟨⟨t, ht⟩, hsends⟩ := hsends
    rw [List.flatten_cons, List.foldlM_append] at hrun
    obtain ⟨s₁, hfirst, hrun'⟩ := Option.bind_eq_some_iff.mp hrun
    have hrest : ∀ e ∈ groups.flatten, Fits e.data := by
      intro e he
      obtain ⟨es', hes', hmem⟩ := List.mem_flatten.mp he
      obtain ⟨t', ht'⟩ := hsends es' hes'
      exact ht'.reads e hmem
    obtain ⟨writes, hreplies, hanswers, hr₁, hdrift₁⟩ :=
      request_run hstart hst hdrift hr hclient.1 ht hrest hfirst
    obtain ⟨replies, hreplies', hforall⟩ := ih hdrift₁ hr₁ hclient.2 hsends hrun'
    refine ⟨writes :: replies, ?_, .cons hreplies hforall⟩
    rw [hreplies', hanswers, List.append_assoc, List.singleton_append]

end Run

end Service

namespace Process

variable {memory : Nat → Memory} {configBlocks : List ConfigBlock} {server : Server} {remaining : UInt64}
  {portNum : Int} {events : List Event} {p : Process}

/-- **A conversation**: with stateless handlers, a client that sends one request after the other, each
in one read or line by line, gets exactly one response to each of them, in their order: that of the
handler which the config has for its URI, to the request with these components, as if nothing else had
been asked. Behind the first of its reads a NUL has to stand in what `new` found in memory. -/
theorem conversation_run (hstart : Server.start configBlocks = some server) (hst : server.Stateless)
    (i : Nat)
    (hwhole : ∀ e ∈ Machine.trace (step memory) (start memory server remaining portNum) events,
      e.1.Whole e.2)
    (hrun : events.foldlM (step memory) (start memory server remaining portNum) = some p)
    {groups : List (List Service.Input)}
    (hreads : Service.inputsOf i (events.flatMap Event.inputs) = groups.flatten)
    (hmemory : Service.EndsFirst (memory i).data groups.flatten)
    (hsends : ∀ es ∈ groups, ∃ t, Service.Sends es t) :
    List.Forall₂ (Service.Replies configBlocks server) groups (p.written i ++ p.owed i) := by
  obtain ⟨s, hs, hshows⟩ := shows_run hwhole hrun
  have hself : memory i = memory i := rfl
  obtain ⟨s', hs', hanswers⟩ := Service.alone_run hst hself hs
  have hclient : ∀ e ∈ Service.inputsOf i (events.flatMap Event.inputs), e.client = i := fun e he =>
    of_decide_eq_true (List.mem_filter.mp he).2
  rw [hreads] at hclient hs'
  obtain ⟨replies, hreplies, hforall⟩ := Service.talk_run hstart hst (Server.Drift.refl server)
    ⟨rfl, hmemory⟩ hclient hsends hs'
  rw [← hshows.answers, ← hanswers, hreplies]
  exact hforall

/-- The short request is the text of a request. -/
theorem sends_shortRequest (outside : Outside) :
    ∃ t, Service.Sends [⟨0, ReadState.shortRequest, outside⟩] t := by
  let t : RequestText :=
    { method := str "GET"
      uri := str "/"
      major := str "1"
      minor := str "1"
      headers := []
      body := []
      method_ne := by decide
      method_token := forall_mem_of_all (by decide)
      uri_ne := by decide
      uri_uri := forall_mem_of_all (by decide)
      major_ne := by decide
      major_digit := forall_mem_of_all (by decide)
      minor_ne := by decide
      minor_digit := forall_mem_of_all (by decide)
      body_length := rfl }
  have hrender : t.render = ReadState.shortRequest.bytes := rfl
  have hchecked : Utils.checkRequest ReadState.shortRequest.bytes = true := by decide +kernel
  have hfits : Service.Fits ReadState.shortRequest := ⟨by decide, by decide⟩
  refine ⟨t, ?_, ?_⟩
  · rw [hrender]
    exact .whole hchecked
  · rw [List.forall_mem_singleton]
    exact hfits

/-- The theorem at the run of one client. -/
theorem conversation_run_oneClient : ∃ p,
    oneClient.foldlM (step zeroMemory) (start zeroMemory healthServer 0 80) = some p ∧
      List.Forall₂ (Service.Replies [⟨Server.rootKey, str "HealthHandler", []⟩] healthServer)
        [Service.inputsOf 0 (oneClient.flatMap Event.inputs)] (p.written 0 ++ p.owed 0) := by
  obtain ⟨p, hp⟩ := exists_oneClient
  refine ⟨p, hp, conversation_run rfl stateless_healthServer 0 whole_oneClient hp
    (List.flatten_singleton).symm (Service.endsFirst_cleared ?_) ?_⟩
  · rw [List.flatten_singleton]
    obtain ⟨t, ht⟩ := sends_shortRequest _
    exact ht.reads
  · rw [List.forall_mem_singleton]
    exact sends_shortRequest _

end Process

end LowKeyWebServer
