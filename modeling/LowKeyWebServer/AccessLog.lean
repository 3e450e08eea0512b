import LowKeyWebServer.Service

/-!
# The access log

The path and the code of a request are global attributes of the log. The path is set before the
handler runs, so what a handler writes has it too; the code is set for the record of the call alone.
`access_run` says that the log is an account of the service: one record with a path and a code for
each call, in the order of the calls, with the URI of the request and the code of its response; and
no other record has a code.

The address is an attribute too, but it is only set when a client is accepted. `address_run`: while
clients are served one at a time, every record of a request has the address of its own client.
-/

namespace LowKeyWebServer

/-! ## Entries -/

/-- What a record says of an answered request; a record without a code says nothing. -/
def LogRecord.entry (r : LogRecord) : Option (Bytes × Bytes) :=
  if r.resCode = [] then none else some (r.reqPath, r.resCode)

/-- The entry of a request. -/
def accessEntry (uri : Bytes) (code : Int) : Bytes × Bytes :=
  (str "[Request_Path: " ++ uri ++ str "]",
    str "[Response_Code: " ++ StatusHandler.decimalCode code ++ str "]")

namespace Logger

variable {l : Logger}

/-- The entries, in the order of the records. -/
def entries (l : Logger) : List (Bytes × Bytes) := l.records.filterMap LogRecord.entry

/-- No path and no code is set. -/
structure Idle (l : Logger) : Prop where
  path : l.reqPath = []
  code : l.resCode = []

/-- Only a record without an entry has been added. -/
structure Silent (l l' : Logger) : Prop where
  idle : Idle l'
  records : ∃ r, r.entry = none ∧ l'.records = l.records ++ [r]

theorem Silent.entries {l' : Logger} (h : Silent l l') : l'.entries = l.entries := by
  obtain ⟨r, hr, hrecords⟩ := h.records
  rw [Logger.entries, hrecords, List.filterMap_append]
  simp [hr, Logger.entries]

theorem Idle.write (h : Idle l) (severity : Severity) (message : Bytes) :
    Silent l (l.write severity message) :=
  ⟨⟨h.path, h.code⟩, _, by simp [LogRecord.entry, h.code], rfl⟩

theorem Idle.disconnected (h : Idle l) (error : ErrorCode) : Silent l (l.disconnected error) := by
  obtain ⟨hidle, hrecords⟩ := h.write (if error.eof then .info else .error) error.message
  exact ⟨⟨hidle.path, hidle.code⟩, hrecords⟩

theorem Idle.notAccepted (h : Idle l) (error : ErrorCode) : Silent l (l.notAccepted error) := by
  rw [Logger.notAccepted]
  split
  · obtain ⟨hidle, hrecords⟩ := h.write .info (str "Client has disconnected.")
    exact ⟨⟨hidle.path, hidle.code⟩, hrecords⟩
  · obtain ⟨hidle, hrecords⟩ := h.write .error error.message
    exact ⟨⟨hidle.path, hidle.code⟩, hrecords⟩

theorem Idle.accepted (h : Idle l) (ip : Bytes) : Silent l (l.accepted ip) := by
  obtain ⟨hidle, hrecords⟩ :=
    h.write .info (str "ACCEPT CLIENT " ++ ip ++ str " CONNECTION SUCCESSFULLY")
  exact ⟨⟨hidle.path, hidle.code⟩, hrecords⟩

/-- What a handler writes under the path of its request. -/
def handlerRecords (l : Logger) (path : Bytes) (messages : List (Severity × Bytes)) : List LogRecord :=
  messages.map fun m => ⟨m.1, l.clientIp, (l.setPath path).reqPath, l.resCode, m.2⟩

/-- The record of a valid request with its code. -/
def validRecord (l : Logger) (path : Bytes) (code : Int) : LogRecord :=
  ⟨.info, l.clientIp, (accessEntry path code).1, (accessEntry path code).2, str "VALID REQUEST"⟩

/-- Records one after the other have the attributes of the time. -/
theorem writeAll_eq (l : Logger) (messages : List (Severity × Bytes)) :
    l.writeAll messages = { l with
      records := l.records ++ messages.map fun m => ⟨m.1, l.clientIp, l.reqPath, l.resCode, m.2⟩ } := by
  induction messages generalizing l with
  | nil => rw [writeAll, List.foldl_nil, List.map_nil, List.append_nil]
  | cons m messages ih =>
    have hrest := ih (l.write m.1 m.2)
    rw [writeAll] at hrest ⊢
    rw [List.foldl_cons, hrest, Logger.write, List.map_cons, List.append_assoc]
    rfl

/-- The records of a valid request: those of its handler, and its own. -/
theorem records_validRequest (l : Logger) (path : Bytes) (messages : List (Severity × Bytes))
    (code : Int) : (l.validRequest path messages code).records =
      l.records ++ (l.handlerRecords path messages ++ [l.validRecord path code]) := by
  rw [validRequest, writeAll_eq, ← List.append_assoc]
  rfl

theorem clientIp_validRequest (l : Logger) (path : Bytes) (messages : List (Severity × Bytes))
    (code : Int) : (l.validRequest path messages code).clientIp = l.clientIp := by
  rw [validRequest, writeAll_eq]
  rfl

/-- The handler's records have the path, and no code. -/
theorem Idle.handlerRecords (h : Idle l) {path : Bytes} {messages : List (Severity × Bytes)}
    {r : LogRecord} (hr : r ∈ l.handlerRecords path messages) : r.entry = none := by
  obtain ⟨m, -, rfl⟩ := List.mem_map.mp hr
  exact if_pos h.code

theorem entry_validRecord (l : Logger) (path : Bytes) (code : Int) :
    (l.validRecord path code).entry = some (accessEntry path code) :=
  if_neg (List.cons_ne_nil _ _)

theorem entries_validRequest (h : l.Idle) (path : Bytes) (messages : List (Severity × Bytes))
    (code : Int) :
    (l.validRequest path messages code).entries = l.entries ++ [accessEntry path code] := by
  have hhandler : (l.handlerRecords path messages).filterMap LogRecord.entry = [] :=
    List.filterMap_eq_nil_iff.mpr fun r hr => h.handlerRecords hr
  rw [entries, records_validRequest, List.filterMap_append, List.filterMap_append, hhandler,
    List.filterMap_cons_some (l.entry_validRecord path code)]
  rfl

theorem entries_invalidRequest (l : Logger) (path request : Bytes) :
    (l.invalidRequest path request).entries = l.entries ++ [accessEntry path Response.badRequest] := by
  have hcode : StatusHandler.decimalCode Response.badRequest = str "400" := by decide
  rw [entries, invalidRequest, reset, Logger.write, List.filterMap_append]
  simp [LogRecord.entry, setStatus, setPath, accessEntry, entries, hcode, str]

end Logger

namespace Service

/-- The code that a call answers with. -/
def code (site : Site) (outside : Outside) (request : Request) : Session.Action → Option Int
  | .handleWrite => none
  | .badRequest _ => some Response.badRequest
  | .goodRequest _ =>
    (site.visit ⟨request, outside.fs, outside.clock, outside.upstream⟩).map fun out => out.1.code

/-- The entry of a read: the URI of the request that it completes, and the code of the answer. -/
def entry (s : Service) (e : Input) : Option (Bytes × Bytes) :=
  (action (s.readers e.client) e.data).bind fun a =>
    a.text.bind fun text => (requestOf text).bind fun request =>
      (code s.site e.outside request a).map (accessEntry request.uri)

end Service

/-! ## The account -/

namespace Process

variable {memory : Nat → Memory} {p q : Process} {s : Service} {e : Event}

/-- Between two handlers, no path and no code is set, and no session keeps the URI of a request. -/
structure Quiet (p : Process) : Prop where
  idle : p.log.Idle
  cleared : ∀ i c, p.Live i c → c.request.uri = []

section Live

variable {i j : Nat} {c c' : Connection} {op : Operation}

theorem live_await (h : (p.await c op).Live j c') : p.Live j c' ∨ c' = c := by
  rw [Live, await, List.getElem?_set] at h
  split at h
  · split at h
    · exact Or.inr (Option.some.inj (Option.some.inj h)).symm
    · cases h
  · exact Or.inl h

theorem live_delete (h : (p.delete i).Live j c') : p.Live j c' := by
  rw [Live, delete, List.getElem?_set] at h
  split at h
  · split at h <;> cases h
  · exact h

theorem live_startAccept (h : (p.startAccept memory).Live j c') :
    p.Live j c' ∨ c' = .new (memory p.sessions.length) := by
  rw [Live, startAccept, List.getElem?_append] at h
  split at h
  · exact Or.inl h
  · refine Or.inr ?_
    obtain ⟨hlt, heq⟩ := List.getElem?_eq_some_iff.mp h
    rw [List.getElem_singleton] at heq
    exact (Option.some.inj heq).symm

end Live

/-- The shared parser gives a call the URI of its own text. -/
theorem uri_parse {c : Connection} {x : Bytes} {out : RequestParser.ParseOutcome}
    (hp : p.reqParser.Fresh) (hc : c.request.uri = []) (hwhole : ¬ RequestParser.Truncated x)
    (h : p.reqParser.parse c.request x = some out) :
    (requestOf x).map Request.uri = some out.request.uri := by
  by_cases hx : x = []
  · subst hx
    obtain rfl := Option.some.inj h
    exact congrArg some hc.symm
  · rw [RequestParser.requestOf_parse hp hx hwhole h]
    rfl

theorem entry_read {i : Nat} {c c' : Connection} {x : Chunk} {a : Session.Action} (outside : Outside)
    (hs : Shows memory p s) (hop : .read i ∈ p.pending) (hlive : p.Live i c) (hreads : Reads c x a c') :
    s.entry ⟨i, x, outside⟩ = a.text.bind fun text => (requestOf text).bind fun request =>
      (Service.code s.site outside request a).map (accessEntry request.uri) := by
  obtain ⟨hsession, hbuffer⟩ := hs.reader i c _ hlive (hs.waiting hop)
  rw [Service.entry]
  dsimp only
  rw [(hreads.follows hsession hbuffer).1, Option.bind_some]

/-- A session that goes on waiting keeps no URI. -/
theorem Quiet.await (hp : p.Quiet) {c : Connection} (hidle : q.log.Idle) (hc : c.request.uri = [])
    (hlive : ∀ j c', q.Live j c' → p.Live j c' ∨ c' = c) : q.Quiet :=
  ⟨hidle, fun j c' h => (hlive j c' h).elim (hp.cleared j c') fun heq => heq ▸ hc⟩

/-- A session that is deleted keeps nothing. -/
theorem Quiet.delete (hp : p.Quiet) (hidle : q.log.Idle) (hlive : ∀ j c, q.Live j c → p.Live j c) :
    q.Quiet :=
  ⟨hidle, fun j c h => hp.cleared j c (hlive j c h)⟩

theorem Quiet.startAccept (hp : p.Quiet) : (p.startAccept memory).Quiet :=
  hp.await hp.idle rfl fun _ _ => live_startAccept

/-- **One handler** leaves no attribute set. -/
theorem Handles.quiet (h : Handles memory p e q) (hp : p.Quiet) : q.Quiet := by
  cases h with
  | @accepted i c ip hlive =>
    have hawait : (({ p with log := p.log.accepted ip } : Process).await { c with remote := some ip }
        (.read i)).Quiet :=
      hp.await (c := { c with remote := some ip }) (hp.idle.accepted ip).idle (hp.cleared i c hlive)
        fun _ _ => live_await
    exact hawait.startAccept
  | @acceptFailed i c error hlive =>
    have hdelete : (({ p with log := p.log.notAccepted error } : Process).delete i).Quiet :=
      hp.delete (hp.idle.notAccepted error).idle fun _ _ => live_delete
    exact hdelete.startAccept
  | @readFailed i c error hlive | @writeFailed i c error hlive =>
    exact hp.delete (hp.idle.disconnected error).idle fun _ _ => live_delete
  | @written i c hlive => exact hp.await hp.idle (hp.cleared i c hlive) fun _ _ => live_await
  | @thread i c request response hlive hresponse =>
    exact hp.await (c := { c with buffer := .cleared }) hp.idle (hp.cleared i c hlive)
      fun _ _ => live_await
  | @more i c c' x outside hlive hreads =>
    obtain ⟨request, -, -, hc'⟩ := hreads
    have hcleared : c'.request.uri = [] := by
      rw [hc']
      exact hp.cleared i c hlive
    exact hp.await hp.idle hcleared fun _ _ => live_await
  | good hlive hreads hparse hvisit => exact hp.await ⟨rfl, rfl⟩ rfl fun _ _ => live_await
  | bad hlive hreads hparse => exact hp.await ⟨rfl, rfl⟩ rfl fun _ _ => live_await

/-- **One handler** adds the entries of its reads. -/
theorem Handles.entries (h : Handles memory (p.complete e.operation) e q) (hs : Shows memory p s)
    (hop : e.operation ∈ p.pending) (hwhole : p.Whole e) (hp : p.Quiet) :
    q.log.entries = p.log.entries ++ e.inputs.filterMap s.entry := by
  cases h with
  | @accepted i c ip hlive => exact (hp.idle.accepted ip).entries.trans (List.append_nil _).symm
  | @acceptFailed i c error hlive =>
    exact (hp.idle.notAccepted error).entries.trans (List.append_nil _).symm
  | @readFailed i c error hlive | @writeFailed i c error hlive =>
    exact (hp.idle.disconnected error).entries.trans (List.append_nil _).symm
  | written hlive | thread hlive hresponse => exact (List.append_nil _).symm
  | @more i c c' x outside hlive hreads =>
    rw [Event.inputs, List.filterMap_cons_none, List.filterMap_nil, List.append_nil]
    · rfl
    · exact entry_read outside hs hop hlive hreads
  | @good i c c' x outside text out response site hlive hreads hparse hvisit =>
    have htext := hwhole text (hreads.callText hlive outside)
    have hrequest := RequestParser.requestOf_parse hs.fresh hreads.ne_nil htext hparse
    have hentry : s.entry ⟨i, x, outside⟩ = some (accessEntry out.request.uri response.code) := by
      rw [entry_read outside hs hop hlive hreads, Session.Action.text, Option.bind_some, hrequest,
        Option.bind_some, Service.code, hs.site]
      replace hvisit : p.site.visit ⟨out.request, outside.fs, outside.clock, outside.upstream⟩ =
          some (response, site) := hvisit
      rw [hvisit]
      rfl
    rw [Event.inputs, List.filterMap_cons_some hentry, List.filterMap_nil]
    exact Logger.entries_validRequest hp.idle _ _ _
  | @bad i c c' x outside text out hlive hreads hparse =>
    have htext := hwhole text (hreads.callText hlive outside)
    have huri := uri_parse hs.fresh (hp.cleared i c hlive) htext hparse
    have hentry : s.entry ⟨i, x, outside⟩ =
        some (accessEntry out.request.uri Response.badRequest) := by
      obtain ⟨request, hrequest, hsame⟩ := Option.map_eq_some_iff.mp huri
      rw [entry_read outside hs hop hlive hreads, Session.Action.text, Option.bind_some, hrequest,
        Option.bind_some, Service.code, Option.map_some, hsame]
    rw [Event.inputs, List.filterMap_cons_some hentry, List.filterMap_nil]
    exact Logger.entries_invalidRequest _ _ _

theorem quiet_start (server : Server) (remaining : UInt64) (portNum : Int) :
    (start memory server remaining portNum).Quiet ∧
      (start memory server remaining portNum).log.entries = [] := by
  refine ⟨⟨⟨rfl, rfl⟩, fun i c hlive => ?_⟩, rfl⟩
  rcases live_startAccept hlive with hlive | hc
  · simp [Live] at hlive
  · rw [hc]
    rfl

/-- A run from a state that the service shows. -/
theorem entries_run (hs : Shows memory p s) (hp : p.Quiet) {events : List Event}
    (hwhole : ∀ e ∈ Machine.trace (step memory) p events, e.1.Whole e.2)
    (hrun : events.foldlM (step memory) p = some q) :
    q.Quiet ∧ q.log.entries = p.log.entries ++
      (Machine.trace Service.step s (events.flatMap Event.inputs)).filterMap fun e => e.1.entry e.2 := by
  induction events generalizing p s with
  | nil =>
    obtain rfl := Option.some.inj hrun
    exact ⟨hp, (List.append_nil _).symm⟩
  | cons e events ih =>
    rw [List.foldlM_cons] at hrun
    obtain ⟨p₁, hstep, hrun⟩ := Option.bind_eq_some_iff.mp hrun
    rw [Machine.forall_trace_cons] at hwhole
    obtain ⟨hop, hhandles⟩ := step_cases hstep
    obtain ⟨s₁, hinputs, hs₁⟩ := hhandles.shows hs hop hwhole.1
    have hp₁ := hhandles.quiet ⟨hp.idle, hp.cleared⟩
    have hentries := hhandles.entries hs hop hwhole.1 hp
    obtain ⟨hq, hrest⟩ := ih hs₁ hp₁ (hwhole.2 p₁ hstep) hrun
    refine ⟨hq, ?_⟩
    -- an event has at most one read
    have hfirst : (Machine.trace Service.step s e.inputs).filterMap (fun e => e.1.entry e.2) =
        e.inputs.filterMap s.entry := by
      cases e with
      | read i x outside =>
        obtain ⟨s', hs', -⟩ := Option.bind_eq_some_iff.mp hinputs
        rw [Event.inputs, Machine.trace_some hs']
        rfl
      | accepted | acceptFailed | readFailed | written | writeFailed | thread => rfl
    rw [List.flatMap_cons, Machine.trace_append hinputs, List.filterMap_append, hfirst, hrest, hentries,
      List.append_assoc]

/-- **The access log is an account of the service**: one entry for each call of a run, in the order
of the calls, with the URI of its request and the code of its response, and no other. -/
theorem access_run {server : Server} {remaining : UInt64} {portNum : Int} {events : List Event}
    (hwhole : ∀ e ∈ Machine.trace (step memory) (start memory server remaining portNum) events,
      e.1.Whole e.2)
    (hrun : events.foldlM (step memory) (start memory server remaining portNum) = some p) :
    p.log.Idle ∧ p.log.entries =
      (Machine.trace Service.step (Service.new memory server) (events.flatMap Event.inputs)).filterMap
        fun e => e.1.entry e.2 := by
  obtain ⟨hquiet, hentries⟩ := @quiet_start memory server remaining portNum
  obtain ⟨hp, hrest⟩ := entries_run (shows_start memory server remaining portNum) hquiet hwhole hrun
  rw [hentries, List.nil_append] at hrest
  exact ⟨hp.idle, hrest⟩

/-- The theorem at the run of one client. -/
theorem access_run_oneClient : ∃ p, oneClient.foldlM (step zeroMemory) (start zeroMemory healthServer 0 80) =
    some p ∧ p.log.Idle ∧ p.log.entries = (Machine.trace Service.step (Service.new zeroMemory healthServer)
      (oneClient.flatMap Event.inputs)).filterMap fun e => e.1.entry e.2 := by
  obtain ⟨p, hp⟩ := exists_oneClient
  exact ⟨p, hp, access_run whole_oneClient hp⟩

/-! ## The address -/

/-- The attribute of an address. -/
def addressOf (ip : Bytes) : Bytes := str "[IP: " ++ ip ++ str "]"

/-- A client is only accepted, or not accepted, while no other one is served. -/
def OneAtATime (p : Process) (e : Event) : Prop :=
  e.operation.isAccept = true → ∀ op ∈ p.pending, op.isAccept = true

instance (p : Process) (e : Event) : Decidable (OneAtATime p e) := by
  unfold OneAtATime
  infer_instance

/-- At most one client is served, and the attribute is its address. -/
structure Tagged (p : Process) : Prop where
  single : ∀ op ∈ p.pending, ∀ op' ∈ p.pending, op.isAccept = false → op'.isAccept = false → op = op'
  address : ∀ op ∈ p.pending, op.isAccept = false →
    ∃ c ip, p.Live op.session c ∧ c.remote = some ip ∧ p.log.clientIp = addressOf ip

theorem Reads.remote {c c' : Connection} {x : Chunk} {a : Session.Action} (h : Reads c x a c') :
    c'.remote = c.remote := by
  obtain ⟨request, -, -, hc'⟩ := h
  rw [hc']

section Tagged

variable {op op' : Operation} {c : Connection}

/-- Nobody is served. -/
theorem tagged_of_accepts (h : ∀ op ∈ p.pending, op.isAccept = true) : p.Tagged := by
  have hno : ∀ op ∈ p.pending, op.isAccept ≠ false := fun op hop => by
    rw [h op hop]
    exact Bool.noConfusion
  exact ⟨fun op hop _ _ hfalse => absurd hfalse (hno op hop), fun op hop hfalse => absurd hfalse (hno op hop)⟩

/-- Somebody is served, and nobody else. -/
theorem tagged_of_one {ip : Bytes} (h : ∀ op' ∈ p.pending, op'.isAccept = true ∨ op' = op)
    (hlive : p.Live op.session c) (hremote : c.remote = some ip) (hip : p.log.clientIp = addressOf ip) :
    p.Tagged := by
  have heq : ∀ op' ∈ p.pending, op'.isAccept = false → op' = op := fun op' hop hfalse =>
    (h op' hop).resolve_left fun htrue => by
      rw [htrue] at hfalse
      cases hfalse
  refine ⟨fun a ha b hb ha' hb' => (heq a ha ha').trans (heq b hb hb').symm, fun op' hop hfalse => ?_⟩
  obtain rfl := heq op' hop hfalse
  exact ⟨c, ip, hlive, hremote, hip⟩

/-- Whoever else is waited for is not served. -/
theorem Tagged.accepts_erase (ht : p.Tagged) (hp : p.Accounted) (hop : op ∈ p.pending)
    (haccept : op.isAccept = false) : ∀ op' ∈ p.pending.erase op, op'.isAccept = true := by
  intro op' hmem
  by_contra hfalse
  rw [Bool.not_eq_true] at hfalse
  obtain rfl := ht.single op' (List.mem_of_mem_erase hmem) op hop hfalse haccept
  exact Custody.owner_ne_of_mem_erase hp.custody.nodup hop hmem rfl

/-- The client that is served goes on being served. -/
theorem Tagged.await (ht : p.Tagged) (hp : p.Accounted) (hop : op ∈ p.pending)
    (haccept : op.isAccept = false) (op' : Operation) (c' : Connection) (hsession : op'.session = op.session)
    (hlive : p.Live op.session c) (hremote : c'.remote = c.remote)
    (hsessions : q.sessions = p.sessions.set op.session (some c'))
    (hpending : q.pending = op' :: p.pending.erase op) (hip : q.log.clientIp = p.log.clientIp) :
    q.Tagged := by
  obtain ⟨d, ip, hlive', hremote', hip'⟩ := ht.address op hop haccept
  obtain rfl := Option.some.inj (Option.some.inj (hlive.symm.trans hlive'))
  have hsame : q.Live op'.session c' := by
    rw [Live, hsessions, hsession]
    exact List.getElem?_set_self (List.getElem?_eq_some_iff.mp hlive).1
  refine tagged_of_one (fun op'' hmem => ?_) hsame (hremote.trans hremote') (hip.trans hip')
  rw [hpending, List.mem_cons] at hmem
  exact hmem.symm.imp_left (ht.accepts_erase hp hop haccept op'')

end Tagged

/-- A client that is accepted while nobody is served is the only one. -/
theorem tagged_accepted {i : Nat} {c : Connection} {ip : Bytes}
    (haccepts : ∀ op ∈ p.pending, op.isAccept = true) (hlive : p.Live i c)
    (hip : p.log.clientIp = addressOf ip) :
    ((p.await { c with remote := some ip } (.read i)).startAccept memory).Tagged := by
  have hset : (p.sessions.set i (some { c with remote := some ip }))[i]? =
      some (some { c with remote := some ip }) :=
    List.getElem?_set_self (List.getElem?_eq_some_iff.mp hlive).1
  have hnew : ((p.await { c with remote := some ip } (.read i)).startAccept memory).Live i
      { c with remote := some ip } :=
    (List.getElem?_append_left (List.getElem?_eq_some_iff.mp hset).1).trans hset
  refine @tagged_of_one _ (.read i) _ ip (fun op hmem => ?_) hnew rfl hip
  rcases List.mem_cons.mp hmem with rfl | hmem
  · exact Or.inl rfl
  · rcases List.mem_cons.mp hmem with rfl | hmem
    · exact Or.inr rfl
    · exact Or.inl (haccepts op hmem)

/-- **One handler**, where clients are served one at a time. -/
theorem tagged_step (ht : p.Tagged) (hp : p.Accounted) (hone : p.OneAtATime e)
    (h : p.step memory e = some q) : q.Tagged := by
  obtain ⟨hop, hhandles⟩ := step_cases h
  cases hhandles with
  | @accepted i c ip hlive =>
    exact tagged_accepted (fun op hmem => hone rfl op (List.mem_of_mem_erase hmem)) hlive rfl
  | acceptFailed hlive =>
    refine tagged_of_accepts fun op hmem => ?_
    rcases List.mem_cons.mp hmem with rfl | hmem
    · rfl
    · exact hone rfl op (List.mem_of_mem_erase hmem)
  | readFailed hlive => exact tagged_of_accepts (ht.accepts_erase hp hop rfl)
  | writeFailed hlive => exact tagged_of_accepts (ht.accepts_erase hp hop rfl)
  | @written i c hlive => exact ht.await hp hop rfl (.read i) c rfl hlive rfl rfl rfl rfl
  | @thread i c request response hlive hresponse =>
    exact ht.await hp hop rfl (.write i) { c with buffer := .cleared } rfl hlive rfl rfl rfl rfl
  | @more i c c' x outside hlive hreads =>
    have hremote := hreads.remote
    exact ht.await hp hop rfl (.read i) c' rfl hlive hremote rfl rfl rfl
  | @good i c c' x outside text out response site hlive hreads hparse hvisit =>
    have hremote := hreads.remote
    exact ht.await hp hop rfl (.write i) { c' with buffer := .cleared, request := .cleared } rfl hlive
      hremote rfl rfl (Logger.clientIp_validRequest _ _ _ _)
  | @bad i c c' x outside text out hlive hreads hparse =>
    have hremote := hreads.remote
    exact ht.await hp hop rfl (.thread i text) { c' with request := .cleared } rfl hlive hremote rfl rfl rfl

/-- The records of a call have the attribute of its time; the last of them is its own. -/
theorem record_call {text : Bytes} (hcall : p.callText e = some text) (h : p.step memory e = some q) :
    e.operation.isAccept = false ∧ ∃ handler r, q.log.records = p.log.records ++ (handler ++ [r]) ∧
      r.entry ≠ none ∧ ∀ r' ∈ handler ++ [r], r'.clientIp = p.log.clientIp := by
  obtain ⟨hop, hhandles⟩ := step_cases h
  cases hhandles with
  | accepted | acceptFailed | readFailed | writeFailed | written | thread => cases hcall
  | @more i c c' x outside hlive hreads =>
    have htext : p.callText (.read i x outside) = none := hreads.callText (p := p) hlive outside
    rw [htext] at hcall
    cases hcall
  | @good i c c' x outside text' out response site hlive hreads hparse hvisit =>
    refine ⟨rfl, p.log.handlerRecords out.request.uri outside.messages,
      p.log.validRecord out.request.uri response.code, Logger.records_validRequest _ _ _ _, ?_, ?_⟩
    · rw [Logger.entry_validRecord]
      exact Option.some_ne_none _
    · intro r hr
      rcases List.mem_append.mp hr with hr | hr
      · obtain ⟨m, -, rfl⟩ := List.mem_map.mp hr
        rfl
      · rw [List.mem_singleton.mp hr]
        rfl
  | bad hlive hreads hparse =>
    refine ⟨rfl, [], _, rfl, by simp [LogRecord.entry, Logger.setStatus, str], fun r hr => ?_⟩
    rw [List.mem_singleton.mp hr]
    rfl

/-- **Whose address a record has**: in a run in which clients are served one at a time, the record of
every call has the address of the client whose call it is. -/
theorem address_run {server : Server} {remaining : UInt64} {portNum : Int} {events : List Event}
    (hone : ∀ e ∈ Machine.trace (step memory) (start memory server remaining portNum) events,
      e.1.OneAtATime e.2) :
    ∀ e ∈ Machine.trace (step memory) (start memory server remaining portNum) events,
      ∀ text q, e.1.callText e.2 = some text → e.1.step memory e.2 = some q →
        ∃ c ip handler r, e.1.Live e.2.operation.session c ∧ c.remote = some ip ∧
          q.log.records = e.1.log.records ++ (handler ++ [r]) ∧ r.entry ≠ none ∧
            ∀ r' ∈ handler ++ [r], r'.clientIp = addressOf ip := by
  have hstart : (start memory server remaining portNum).Tagged :=
    tagged_of_accepts fun op hmem => List.mem_singleton.mp hmem ▸ rfl
  have hall : ∀ e ∈ Machine.trace (step memory) (start memory server remaining portNum) events,
      e.1.Accounted ∧ e.1.Tagged :=
    @Machine.forall_trace _ _ _ (fun p : Process => p.Accounted ∧ p.Tagged)
      (fun e => e.1.OneAtATime e.2)
      (fun _ _ _ hp hone h => ⟨accounted_step hp.1 h, tagged_step hp.2 hp.1 hone h⟩)
      _ ⟨accounted_start server remaining portNum, hstart⟩ _ hone
  intro e he text q hcall hstep
  obtain ⟨-, htagged⟩ := hall e he
  obtain ⟨haccept, handler, r, hrecords, hentry, hip⟩ := record_call hcall hstep
  obtain ⟨c, ip, hlive, hremote, haddress⟩ := htagged.address _ (step_cases hstep).1 haccept
  exact ⟨c, ip, handler, r, hlive, hremote, hrecords, hentry, fun r' hr' => (hip r' hr').trans haddress⟩

/-- The theorem at the run of one client, which has one call. -/
theorem address_run_oneClient :
    ∃ e ∈ Machine.trace (step zeroMemory) (start zeroMemory healthServer 0 80) oneClient, ∃ q c ip handler r,
      e.1.callText e.2 = some ReadState.shortRequest.bytes ∧ e.1.step zeroMemory e.2 = some q ∧
        e.1.Live e.2.operation.session c ∧ c.remote = some ip ∧
        q.log.records = e.1.log.records ++ (handler ++ [r]) ∧ r.entry ≠ none ∧
          ∀ r' ∈ handler ++ [r], r'.clientIp = addressOf ip := by
  have hall : (Machine.trace (step zeroMemory) (start zeroMemory healthServer 0 80) oneClient).any
      (fun e => (e.1.callText e.2 == some ReadState.shortRequest.bytes) &&
        (e.1.step zeroMemory e.2).isSome) = true := by
    decide +kernel
  obtain ⟨e, he, hcall⟩ := List.any_eq_true.mp hall
  rw [Bool.and_eq_true, beq_iff_eq] at hcall
  obtain ⟨q, hq⟩ := Option.isSome_iff_exists.mp hcall.2
  obtain ⟨c, ip, handler, r, h⟩ := address_run (by decide +kernel) e he _ q hcall.1 hq
  exact ⟨e, he, q, c, ip, handler, r, hcall.1, hq, h⟩

end Process

end LowKeyWebServer
