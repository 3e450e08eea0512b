import LowKeyWebServer.EchoHandler
import LowKeyWebServer.Isolation
import LowKeyWebServer.ReadBuffer
import LowKeyWebServer.Lib.Custody

/-!
# The event loop

`io_service::run` calls one completion handler after the other: those of `server` and `session`,
which start the next operation, and delete the session when a client is gone. `bad_request` hands
its answer to a thread of its own, which is one more operation to wait for. An order of events is
an order in which the operations complete: any order, for any number of clients.

`callback` is what a handler does, and `callback_cases` says once what that can be.
`Process.run_accounted` is the discipline of the loop: every session that has not been deleted is
waited for by exactly one operation, and no handler is called on a deleted session.
-/

namespace LowKeyWebServer

open Dispatcher

/-! ## The log -/

/-- The severity of a record. -/
inductive Severity : Type where
  | info
  | warning
  | error
  deriving DecidableEq

/-- A record: the attributes at the time, and the message. -/
structure LogRecord : Type where
  severity : Severity
  clientIp : Bytes
  reqPath : Bytes
  resCode : Bytes
  message : Bytes
  deriving DecidableEq

/-- The global attributes of the log, and the records. -/
structure Logger : Type where
  clientIp : Bytes
  reqPath : Bytes
  resCode : Bytes
  records : List LogRecord

/-- What a handler is told: whether the error is `boost::asio::error::eof`, and its message. -/
structure ErrorCode : Type where
  eof : Bool
  message : Bytes

namespace Logger

/-- `Logger::setIp`. -/
def setIp (l : Logger) (ip : Bytes) : Logger := { l with clientIp := str "[IP: " ++ ip ++ str "]" }

/-- `Logger::setPath`. -/
def setPath (l : Logger) (path : Bytes) : Logger :=
  { l with reqPath := str "[Request_Path: " ++ path ++ str "]" }

/-- `Logger::setStatus`. -/
def setStatus (l : Logger) (status : Bytes) : Logger :=
  { l with resCode := str "[Response_Code: " ++ status ++ str "]" }

/-- `Logger::reset`. -/
def reset (l : Logger) : Logger := { l with reqPath := [], resCode := [] }

/-- `Logger::resetIp`. -/
def resetIp (l : Logger) : Logger := { l with clientIp := [] }

/-- `INFO`, `WARN` and `ERROR`. -/
def write (l : Logger) (severity : Severity) (message : Bytes) : Logger :=
  { l with records := l.records ++ [⟨severity, l.clientIp, l.reqPath, l.resCode, message⟩] }

/-- Records one after the other, under the same attributes. -/
def writeAll (l : Logger) (messages : List (Severity × Bytes)) : Logger :=
  messages.foldl (fun l m => l.write m.1 m.2) l

/-- The end of a session: client disconnected or other errors. -/
def disconnected (l : Logger) (error : ErrorCode) : Logger :=
  (l.write (if error.eof then .info else .error) error.message).resetIp

/-- The same for a connection that is not accepted. -/
def notAccepted (l : Logger) (error : ErrorCode) : Logger :=
  (if error.eof then l.write .info (str "Client has disconnected.")
    else l.write .error error.message).resetIp

/-- A client is accepted; its address is logged, and an attribute from then on. -/
def accepted (l : Logger) (ip : Bytes) : Logger :=
  (l.write .info (str "ACCEPT CLIENT " ++ ip ++ str " CONNECTION SUCCESSFULLY")).setIp ip

/-- The records of a valid request: what its handler writes, under its path, and its own with the
code. -/
def validRequest (l : Logger) (path : Bytes) (messages : List (Severity × Bytes)) (code : Int) : Logger :=
  ((((l.setPath path).writeAll messages).setStatus (StatusHandler.decimalCode code)).write .info
    (str "VALID REQUEST")).reset

/-- The record of an invalid request. -/
def invalidRequest (l : Logger) (path request : Bytes) : Logger :=
  (((l.setPath path).setStatus (str "400")).write .warning (str "INVALID REQUEST: " ++ request)).reset

end Logger

/-! ## Sessions and operations -/

/-- A `session`. -/
structure Connection : Type where
  /-- `request_start` and `http_body` -/
  session : Session
  /-- `data_` -/
  buffer : Buffer
  /-- `request_` -/
  request : Request
  /-- the address of the client of `socket_`, once it has one -/
  remote : Option Bytes

/-- The members that the constructor does not initialise, as `new session` finds them. -/
structure Memory : Type where
  /-- `data_` -/
  data : Buffer
  /-- `request_.method_` -/
  method : Method

/-- `new session`. -/
def Connection.new (m : Memory) : Connection :=
  ⟨Session.new, m.data, { Request.cleared with method := m.method }, none⟩

/-- An operation that has been started and has not completed. A session is its index. -/
inductive Operation : Type where
  /-- `async_accept` -/
  | accept (session : Nat)
  /-- `async_read_some` -/
  | read (session : Nat)
  /-- `async_write` -/
  | write (session : Nat)
  /-- the thread of `bad_request` -/
  | thread (session : Nat) (request : Bytes)
  deriving DecidableEq

/-- The session that the operation is on. -/
def Operation.session : Operation → Nat
  | accept i => i
  | read i => i
  | write i => i
  | thread i _ => i

/-- It waits for a client. -/
def Operation.isAccept : Operation → Bool
  | accept _ => true
  | read _ => false
  | write _ => false
  | thread _ _ => false

/-- What the handler of a request reads from outside, what it writes to the log (anything), and
whether `write_some` succeeds. -/
structure Outside : Type where
  fs : FileSystem
  clock : Clock
  upstream : Bytes → Upstream
  messages : List (Severity × Bytes)
  writeSome : Bool

/-- The completion of an operation. -/
inductive Event : Type where
  /-- a client is accepted; without an address if `remote_endpoint` throws -/
  | accepted (session : Nat) (remote : Option Bytes)
  | acceptFailed (session : Nat) (error : ErrorCode)
  | read (session : Nat) (data : Chunk) (outside : Outside)
  | readFailed (session : Nat) (error : ErrorCode)
  | written (session : Nat)
  | writeFailed (session : Nat) (error : ErrorCode)
  /-- the thread of `bad_request` runs -/
  | thread (session : Nat) (request : Bytes)

/-- The operation that completes. -/
def Event.operation : Event → Operation
  | accepted i _ => .accept i
  | acceptFailed i _ => .accept i
  | read i _ _ => .read i
  | readFailed i _ => .read i
  | written i => .write i
  | writeFailed i _ => .write i
  | thread i request => .thread i request

/-- The process. -/
structure Process : Type where
  /-- the handlers, and what they keep -/
  site : Site
  /-- the global `req_parser` -/
  reqParser : RequestParser
  /-- the log -/
  log : Logger
  /-- the sessions, in the order of their allocation; `none` has been deleted -/
  sessions : List (Option Connection)
  /-- the operations that are waited for -/
  pending : List Operation
  /-- what has been written to the sockets, each with its session -/
  sent : List (Nat × List Write)

/-- Why a handler does not return to the loop. -/
inductive Stop : Type where
  /-- a member function of a deleted session -/
  | deleted
  /-- an exception, which `main` catches and returns -/
  | exception
  /-- a null pointer, an access out of range, or an exception in a thread of its own -/
  | undefined
  deriving DecidableEq

namespace Process

/-! ## Handlers -/

/-- The object behind a `session` pointer. -/
def connection (p : Process) (i : Nat) : Except Stop Connection :=
  match p.sessions[i]? with
  | some (some c) => .ok c
  | some none => .error .deleted
  | none => .error .deleted

/-- The session goes on waiting, for this operation. -/
def await (p : Process) (c : Connection) (op : Operation) : Process :=
  { p with sessions := p.sessions.set op.session (some c), pending := op :: p.pending }

/-- `delete` of a session. -/
def delete (p : Process) (i : Nat) : Process := { p with sessions := p.sessions.set i none }

section Accept

variable (memory : Nat → Memory)

/-- `server::start_accept`. -/
def startAccept (p : Process) : Process :=
  { p with
    sessions := p.sessions ++ [some (.new (memory p.sessions.length))]
    pending := .accept p.sessions.length :: p.pending }

/-- `server::handle_accept` without an error. -/
def handleAccept (p : Process) (i : Nat) (remote : Option Bytes) : Except Stop Process := do
  let c ← p.connection i
  match remote with
  | none => .error .exception
  | some ip =>
    let p := { p with log := p.log.accepted ip }
    .ok ((p.await { c with remote := some ip } (.read i)).startAccept memory)

/-- `server::handle_accept` with an error. -/
def acceptError (p : Process) (i : Nat) (error : ErrorCode) : Except Stop Process := do
  let _ ← p.connection i
  .ok (({ p with log := p.log.notAccepted error }.delete i).startAccept memory)

end Accept

/-- `good_request` from `setPath` on, with what the handler wrote and returned. -/
def answered (p : Process) (i : Nat) (c : Connection) (parser : RequestParser) (path : Bytes)
    (messages : List (Severity × Bytes)) (response : Response) (site : Site) : Process :=
  { p with
      site := site
      reqParser := parser
      log := p.log.validRequest path messages response.code
      sent := p.sent ++ [(i, dispatch response)] }.await
    { c with buffer := .cleared, request := .cleared } (.write i)

/-- `session::good_request`. Where the response is an image, `write_some` can throw. -/
def goodRequest (p : Process) (i : Nat) (c : Connection) (text : Bytes) (outside : Outside) :
    Except Stop Process :=
  match p.reqParser.parse c.request text with
  | none => .error .undefined
  | some out =>
    match p.site.visit ⟨out.request, outside.fs, outside.clock, outside.upstream⟩ with
    | none => .error .undefined
    | some (response, site) =>
      if 2 ≤ response.srcType ∧ response.body ≠ [] ∧ outside.writeSome = false then .error .exception
      else .ok (p.answered i c out.parser out.request.uri outside.messages response site)

/-- The end of `bad_request`, with its thread on its way. -/
def rejected (p : Process) (i : Nat) (c : Connection) (text : Bytes) (parser : RequestParser)
    (path : Bytes) : Process :=
  { p with reqParser := parser, log := p.log.invalidRequest path text }.await
    { c with request := .cleared } (.thread i text)

/-- `session::bad_request`. -/
def badRequest (p : Process) (i : Nat) (c : Connection) (text : Bytes) : Except Stop Process :=
  match p.reqParser.parse c.request text with
  | none => .error .undefined
  | some out => .ok (p.rejected i c text out.parser out.request.uri)

/-- `session::handle_read` without an error. -/
def handleRead (p : Process) (i : Nat) (x : Chunk) (outside : Outside) : Except Stop Process := do
  let c ← p.connection i
  let buffer := c.buffer.read x
  match buffer.cString with
  | none => .error .undefined
  | some request =>
    let keeps := ReadState.keepsData c.session request x.bytes.length
    let (action, session) := c.session.handleRead request x.bytes.length
    let c := { c with session := session, buffer := buffer }
    match action with
    | .goodRequest text => p.goodRequest i c text outside
    | .badRequest text => p.badRequest i c text
    | .handleWrite => .ok (p.await { c with buffer := if keeps then buffer else .cleared } (.read i))

/-- `session::handle_write` without an error. -/
def handleWrite (p : Process) (i : Nat) : Except Stop Process := do
  let c ← p.connection i
  .ok (p.await c (.read i))

/-- `session::handle_read` and `session::handle_write` with an error. -/
def sessionError (p : Process) (i : Nat) (error : ErrorCode) : Except Stop Process := do
  let _ ← p.connection i
  .ok ({ p with log := p.log.disconnected error }.delete i)

/-- `EchoHandler::handler`, as the thread of `bad_request` calls it; `getResponse` does not throw. -/
def echoHandler (p : Process) (i : Nat) (request : Bytes) : Except Stop Process := do
  let c ← p.connection i
  match EchoHandler.getResponse request false with
  | none => .error .undefined
  | some response =>
    .ok ({ p with sent := p.sent ++ [(i, [Write.sendResponse response])] }.await
      { c with buffer := .cleared } (.write i))

variable (memory : Nat → Memory)

/-- The handler of an event. -/
def callback (p : Process) : Event → Except Stop Process
  | .accepted i remote => p.handleAccept memory i remote
  | .acceptFailed i error => p.acceptError memory i error
  | .read i x outside => p.handleRead i x outside
  | .readFailed i error => p.sessionError i error
  | .written i => p.handleWrite i
  | .writeFailed i error => p.sessionError i error
  | .thread i request => p.echoHandler i request

/-- The operation has completed. -/
def complete (p : Process) (op : Operation) : Process := { p with pending := p.pending.erase op }

/-- What the loop does next, if the operation of the event is waited for. -/
def turn (p : Process) (e : Event) : Option (Except Stop Process) :=
  if e.operation ∈ p.pending then some ((p.complete e.operation).callback memory e) else none

/-- One turn of the loop; `none` where the loop ends. -/
def step (p : Process) (e : Event) : Option Process := (p.turn memory e).bind Except.toOption

/-- Before the first event: `main` up to `io_service.run`. -/
def start (server : Server) (remaining : UInt64) (portNum : Int) : Process :=
  startAccept memory
    { site := Site.new server
      reqParser := .init remaining
      log := (((⟨[], [], [], []⟩ : Logger).write .info (str "DONE")).write .info
        (str "Start listening on port " ++ str (toString portNum))).write .info (str "READY TO ACCEPT")
      sessions := []
      pending := []
      sent := [] }

/-! ## What a handler can do -/

variable {memory} {p q : Process} {e : Event}

/-- The session is there: it has been allocated, and not deleted. -/
def Live (p : Process) (i : Nat) (c : Connection) : Prop := p.sessions[i]? = some (some c)

theorem connection_live {i : Nat} {c : Connection} (h : p.Live i c) : p.connection i = .ok c := by
  rw [connection, h]

/-- A handler that returns has found its session. -/
theorem connection_bind {i : Nat} {f : Connection → Except Stop Process}
    (h : (p.connection i >>= f) = .ok q) : ∃ c, p.Live i c ∧ f c = .ok q := by
  rw [connection] at h
  split at h
  · next c hc => exact ⟨c, hc, h⟩
  · cases h
  · cases h

/-- A read of a session: what its framing state makes of the string in the buffer. Only the next
read is started with a buffer that has been cleared by then. -/
def Reads (c : Connection) (x : Chunk) (action : Session.Action) (c' : Connection) : Prop :=
  ∃ request, (c.buffer.read x).cString = some request ∧
    c.session.handleRead request x.bytes.length = (action, c'.session) ∧
    c' = { c with
      session := c'.session
      buffer := if action = .handleWrite ∧ ReadState.keepsData c.session request x.bytes.length = false
        then .cleared else c.buffer.read x }

variable (memory) in
/-- **The cases of a handler**, by the event and what it leads to. -/
inductive Handles (p : Process) : Event → Process → Prop where
  | accepted {i : Nat} {c : Connection} {ip : Bytes} : p.Live i c →
      Handles p (.accepted i (some ip))
        (({ p with log := p.log.accepted ip }.await { c with remote := some ip } (.read i)).startAccept
          memory)
  | acceptFailed {i : Nat} {c : Connection} {error : ErrorCode} : p.Live i c →
      Handles p (.acceptFailed i error)
        (({ p with log := p.log.notAccepted error }.delete i).startAccept memory)
  | more {i : Nat} {c c' : Connection} {x : Chunk} {outside : Outside} : p.Live i c →
      Reads c x .handleWrite c' → Handles p (.read i x outside) (p.await c' (.read i))
  | good {i : Nat} {c c' : Connection} {x : Chunk} {outside : Outside} {text : Bytes}
      {out : RequestParser.ParseOutcome} {response : Response} {site : Site} : p.Live i c →
      Reads c x (.goodRequest text) c' → p.reqParser.parse c.request text = some out →
      p.site.visit ⟨out.request, outside.fs, outside.clock, outside.upstream⟩ = some (response, site) →
      Handles p (.read i x outside)
        (p.answered i c' out.parser out.request.uri outside.messages response site)
  | bad {i : Nat} {c c' : Connection} {x : Chunk} {outside : Outside} {text : Bytes}
      {out : RequestParser.ParseOutcome} : p.Live i c → Reads c x (.badRequest text) c' →
      p.reqParser.parse c.request text = some out →
      Handles p (.read i x outside) (p.rejected i c' text out.parser out.request.uri)
  | readFailed {i : Nat} {c : Connection} {error : ErrorCode} : p.Live i c →
      Handles p (.readFailed i error) ({ p with log := p.log.disconnected error }.delete i)
  | written {i : Nat} {c : Connection} : p.Live i c → Handles p (.written i) (p.await c (.read i))
  | writeFailed {i : Nat} {c : Connection} {error : ErrorCode} : p.Live i c →
      Handles p (.writeFailed i error) ({ p with log := p.log.disconnected error }.delete i)
  | thread {i : Nat} {c : Connection} {request response : Bytes} : p.Live i c →
      EchoHandler.getResponse request false = some response →
      Handles p (.thread i request)
        ({ p with sent := p.sent ++ [(i, [Write.sendResponse response])] }.await
          { c with buffer := .cleared } (.write i))

theorem handles_goodRequest {i : Nat} {c c' : Connection} {x : Chunk} {outside : Outside} {text : Bytes}
    (hlive : p.Live i c) (hreads : Reads c x (.goodRequest text) c')
    (h : p.goodRequest i c' text outside = .ok q) : Handles memory p (.read i x outside) q := by
  have hrequest : c'.request = c.request := by
    obtain ⟨request, -, -, hc'⟩ := hreads
    rw [hc']
  rw [goodRequest, hrequest] at h
  split at h
  · cases h
  · next out hparse =>
    split at h
    · cases h
    · next response site hvisit =>
      split at h
      · cases h
      · obtain rfl := Except.ok.inj h
        exact .good hlive hreads hparse hvisit

theorem handles_badRequest {i : Nat} {c c' : Connection} {x : Chunk} {outside : Outside} {text : Bytes}
    (hlive : p.Live i c) (hreads : Reads c x (.badRequest text) c')
    (h : p.badRequest i c' text = .ok q) : Handles memory p (.read i x outside) q := by
  have hrequest : c'.request = c.request := by
    obtain ⟨request, -, -, hc'⟩ := hreads
    rw [hc']
  rw [badRequest, hrequest] at h
  split at h
  · cases h
  · next out hparse =>
    obtain rfl := Except.ok.inj h
    exact .bad hlive hreads hparse

theorem handles_handleRead {i : Nat} {x : Chunk} {outside : Outside}
    (h : p.handleRead i x outside = .ok q) : Handles memory p (.read i x outside) q := by
  obtain ⟨c, hlive, h⟩ := connection_bind h
  dsimp only at h
  split at h
  · cases h
  · next request hstring =>
    rcases hread : c.session.handleRead request x.bytes.length with ⟨action, session⟩
    rw [hread] at h
    cases action with
    | goodRequest text =>
      exact handles_goodRequest hlive ⟨request, hstring, hread, rfl⟩ h
    | badRequest text =>
      exact handles_badRequest hlive ⟨request, hstring, hread, rfl⟩ h
    | handleWrite =>
      obtain rfl := Except.ok.inj h
      refine .more hlive ⟨request, hstring, hread, ?_⟩
      rcases ReadState.keepsData c.session request x.bytes.length with - | - <;> rfl

/-- What a handler that returns has done is one of the cases. -/
theorem callback_cases (h : p.callback memory e = .ok q) : Handles memory p e q := by
  cases e with
  | accepted i remote =>
    obtain ⟨c, hlive, h⟩ := connection_bind h
    rcases remote with - | ip
    · cases h
    · obtain rfl := Except.ok.inj h
      exact .accepted hlive
  | acceptFailed i error =>
    obtain ⟨c, hlive, h⟩ := connection_bind h
    obtain rfl := Except.ok.inj h
    exact .acceptFailed hlive
  | read i x outside => exact handles_handleRead h
  | readFailed i error =>
    obtain ⟨c, hlive, h⟩ := connection_bind h
    obtain rfl := Except.ok.inj h
    exact .readFailed hlive
  | written i =>
    obtain ⟨c, hlive, h⟩ := connection_bind h
    obtain rfl := Except.ok.inj h
    exact .written hlive
  | writeFailed i error =>
    obtain ⟨c, hlive, h⟩ := connection_bind h
    obtain rfl := Except.ok.inj h
    exact .writeFailed hlive
  | thread i request =>
    obtain ⟨c, hlive, h⟩ := connection_bind h
    obtain rfl := Except.ok.inj h
    exact .thread hlive rfl

/-- A turn of the loop that returns to it. -/
theorem step_cases (h : p.step memory e = some q) :
    e.operation ∈ p.pending ∧ Handles memory (p.complete e.operation) e q := by
  obtain ⟨r, hturn, hr⟩ := Option.bind_eq_some_iff.mp h
  obtain ⟨hmem, hturn⟩ := Option.ite_none_right_eq_some.mp hturn
  obtain rfl := Option.some.inj hturn
  refine ⟨hmem, callback_cases ?_⟩
  rcases hcallback : (p.complete e.operation).callback memory e with stop | q'
  · rw [hcallback] at hr
    cases hr
  · rw [hcallback] at hr
    rw [Option.some.inj hr]

/-! ## What the sessions wait for -/

/-- **The discipline of the loop**: every operation is on a session that has not been deleted, there
is exactly one on each of these, and exactly one of them waits for a client. -/
structure Accounted (p : Process) : Prop where
  custody : Custody.Accounted Operation.session p.sessions p.pending
  accepting : p.pending.countP Operation.isAccept = 1

/-- The discipline while a handler of an `async_accept` runs, and of another operation. -/
def AccountedWithout (p : Process) (op : Operation) : Prop :=
  ∃ pending, op ∈ pending ∧ p.pending = pending.erase op ∧
    Custody.Accounted Operation.session p.sessions pending ∧
    pending.countP Operation.isAccept = 1

theorem Accounted.complete (hp : p.Accounted) {op : Operation} (hop : op ∈ p.pending) :
    (p.complete op).AccountedWithout op := ⟨p.pending, hop, rfl, hp.custody, hp.accepting⟩

namespace AccountedWithout

variable {op op' : Operation}

/-- The session goes on waiting. -/
theorem await (hp : p.AccountedWithout op) (c : Connection) (hsession : op'.session = op.session) :
    Custody.Accounted Operation.session (p.await c op').sessions (p.await c op').pending := by
  obtain ⟨pending, hop, hpending, hcustody, -⟩ := hp
  rw [Process.await, hpending, hsession]
  exact hcustody.exchange hop c hsession

/-- The session is deleted. -/
theorem delete (hp : p.AccountedWithout op) :
    Custody.Accounted Operation.session (p.delete op.session).sessions (p.delete op.session).pending := by
  obtain ⟨pending, hop, hpending, hcustody, -⟩ := hp
  rw [Process.delete, hpending]
  exact hcustody.free hop

theorem countP (hp : p.AccountedWithout op) :
    p.pending.countP Operation.isAccept = if op.isAccept then 0 else 1 := by
  obtain ⟨pending, hop, hpending, -, hcount⟩ := hp
  rw [hpending, List.countP_erase, hcount]
  simp only [hop, true_and]
  split <;> rfl

end AccountedWithout

/-- `start_accept` makes a session, and waits for its client. -/
theorem accounted_startAccept (hp : Custody.Accounted Operation.session p.sessions p.pending)
    (hcount : p.pending.countP Operation.isAccept = 0) : (p.startAccept memory).Accounted := by
  have halloc := hp.alloc (t := .accept p.sessions.length) (.new (memory p.sessions.length)) rfl
  refine ⟨halloc, ?_⟩
  rw [startAccept, List.countP_cons_of_pos rfl, hcount]

theorem accounted_start (server : Server) (remaining : UInt64) (portNum : Int) :
    (start memory server remaining portNum).Accounted :=
  accounted_startAccept Custody.accounted_nil rfl

/-- **One handler** keeps the discipline. -/
theorem Handles.accounted (h : Handles memory p e q) (hp : p.AccountedWithout e.operation) :
    q.Accounted := by
  have hcount := hp.countP
  cases h with
  | accepted hlive =>
    exact accounted_startAccept (hp.await _ rfl) hcount
  | acceptFailed hlive =>
    exact accounted_startAccept hp.delete hcount
  | more hlive hreads => exact ⟨hp.await _ rfl, hcount⟩
  | good hlive hreads hparse hvisit => exact ⟨hp.await _ rfl, hcount⟩
  | bad hlive hreads hparse => exact ⟨hp.await _ rfl, hcount⟩
  | readFailed hlive => exact ⟨hp.delete, hcount⟩
  | written hlive => exact ⟨hp.await _ rfl, hcount⟩
  | writeFailed hlive => exact ⟨hp.delete, hcount⟩
  | thread hlive hresponse => exact ⟨hp.await _ rfl, hcount⟩

theorem accounted_step (hp : p.Accounted) (h : p.step memory e = some q) : q.Accounted := by
  obtain ⟨hop, hhandles⟩ := step_cases h
  exact hhandles.accounted (hp.complete hop)

/-- The session of an operation that is waited for is there. -/
theorem Accounted.exists_live (hp : p.Accounted) {op : Operation} (hop : op ∈ p.pending) :
    ∃ c, p.Live op.session c :=
  hp.custody.live hop

theorem goodRequest_ne_deleted (i : Nat) (c : Connection) (text : Bytes) (outside : Outside) :
    p.goodRequest i c text outside ≠ .error .deleted := by
  intro h
  rw [goodRequest] at h
  split at h
  · cases h
  · split at h
    · cases h
    · split at h <;> cases h

theorem badRequest_ne_deleted (i : Nat) (c : Connection) (text : Bytes) :
    p.badRequest i c text ≠ .error .deleted := by
  intro h
  rw [badRequest] at h
  split at h <;> cases h

/-- No handler of a live session's operation uses a deleted session. -/
theorem callback_ne_deleted {c : Connection} (hlive : p.Live e.operation.session c) :
    p.callback memory e ≠ .error .deleted := by
  have hfound : p.connection e.operation.session = .ok c := connection_live hlive
  intro h
  cases e with
  | accepted i remote =>
    change p.connection i = _ at hfound
    rw [callback, handleAccept, hfound] at h
    rcases remote with - | ip <;> cases h
  | acceptFailed i error =>
    change p.connection i = _ at hfound
    rw [callback, acceptError, hfound] at h
    cases h
  | read i x outside =>
    change p.connection i = _ at hfound
    rw [callback, handleRead, hfound] at h
    replace h : Except.bind (.ok c) _ = _ := h
    dsimp only [Except.bind] at h
    split at h
    · cases h
    · next request hstring =>
      rcases hread : c.session.handleRead request x.bytes.length with ⟨action, session⟩
      rw [hread] at h
      cases action with
      | goodRequest text => exact goodRequest_ne_deleted _ _ _ _ h
      | badRequest text => exact badRequest_ne_deleted _ _ _ h
      | handleWrite => cases h
  | readFailed i error =>
    change p.connection i = _ at hfound
    rw [callback, sessionError, hfound] at h
    cases h
  | written i =>
    change p.connection i = _ at hfound
    rw [callback, handleWrite, hfound] at h
    cases h
  | writeFailed i error =>
    change p.connection i = _ at hfound
    rw [callback, sessionError, hfound] at h
    cases h
  | thread i request =>
    change p.connection i = _ at hfound
    rw [callback, echoHandler, hfound] at h
    cases h

/-- In a state that keeps the discipline, the next handler finds its session. -/
theorem Accounted.turn_ne_deleted (hp : p.Accounted) (e : Event) :
    p.turn memory e ≠ some (.error .deleted) := by
  intro h
  obtain ⟨hop, h⟩ := Option.ite_none_right_eq_some.mp h
  obtain ⟨c, hlive⟩ := hp.exists_live hop
  exact callback_ne_deleted (p := p.complete e.operation) hlive (Option.some.inj h)

/-- **Every session is waited for by exactly one operation, and none is used after its deletion**:
in every state of every run, whatever the clients and their sockets do. -/
theorem run_accounted (memory : Nat → Memory) (server : Server) (remaining : UInt64) (portNum : Int)
    (events : List Event) :
    ∀ e ∈ Machine.trace (step memory) (start memory server remaining portNum) events,
      e.1.Accounted ∧ e.1.turn memory e.2 ≠ some (.error .deleted) := by
  have hall : ∀ e ∈ Machine.trace (step memory) (start memory server remaining portNum) events,
      e.1.Accounted :=
    Machine.forall_trace (fun _ => True) (fun _ _ _ hp _ h => accounted_step hp h)
      (accounted_start server remaining portNum) fun _ _ => trivial
  exact fun e he => ⟨hall e he, (hall e he).turn_ne_deleted e.2⟩

/-- The theorem at a client that is gone before it has asked. -/
theorem run_accounted_gone : ∃ p : Process, p.Accounted ∧
    p.turn (fun _ => ⟨.cleared, .get⟩) (.readFailed 0 ⟨true, str "End of file"⟩) ≠ some (.error .deleted) := by
  obtain ⟨p, hp⟩ : ∃ p, step (fun _ => ⟨.cleared, .get⟩) (start (fun _ => ⟨.cleared, .get⟩) ⟨∅, ∅⟩ 0 80)
      (.accepted 0 (some (str "127.0.0.1"))) = some p := ⟨_, rfl⟩
  refine ⟨p, run_accounted (fun _ => ⟨.cleared, .get⟩) ⟨∅, ∅⟩ 0 80
    [.accepted 0 (some (str "127.0.0.1")), .readFailed 0 ⟨true, str "End of file"⟩] (p, _) ?_⟩
  rw [Machine.trace_some hp]
  exact List.mem_cons_of_mem _ List.mem_cons_self

end Process

end LowKeyWebServer
