import LowKeyWebServer.EventLoop

/-!
# The service

What the process is for, without operations, a shared parser or a log: `Service` answers the reads
of its clients one after the other. Each read goes to the framing state of its client; where it
completes a request, the handlers answer what a parser of its own makes of it, and where it is an
error, the client gets its own bytes back.

`Process.service_run` is the refinement: in every run in which no call ends in the middle of a
request, what the process has sent to a client, with the answer that a thread still owes it, is
what the service answers to the same reads.
-/

namespace LowKeyWebServer

open Dispatcher

/-! ## The specification -/

/-- The request of a text: that of a parser of its own, if the text has one. -/
def requestOf (text : Bytes) : Option Request :=
  ((RequestParser.init 0).parse .cleared text).map RequestParser.ParseOutcome.request

/-- The answer to a bad request: its own bytes. -/
def badResponse (text : Bytes) : List Write := [.sendResponse (EchoHandler.respond (str "400 Bad Request") text)]

/-- The service. -/
structure Service : Type where
  /-- the handlers, and what they keep -/
  site : Site
  /-- the framing state of each client -/
  readers : Nat → ReadState
  /-- what has been answered to each client -/
  answers : Nat → List (List Write)

namespace Service

/-- A read of a client. -/
structure Input : Type where
  client : Nat
  data : Chunk
  outside : Outside

/-- What a call of `good_request` or `bad_request` answers. -/
def answer (site : Site) (outside : Outside) : Session.Action → Option (List (List Write) × Site)
  | .handleWrite => some ([], site)
  | .badRequest text => some ([badResponse text], site)
  | .goodRequest text =>
    (requestOf text).bind fun request =>
      (site.visit ⟨request, outside.fs, outside.clock, outside.upstream⟩).map fun out =>
        ([dispatch out.1], out.2)

/-- What the framing state of a client makes of a read. -/
def action (r : ReadState) (x : Chunk) : Option Session.Action :=
  (r.buffer.read x).cString.map fun request => (r.session.handleRead request x.bytes.length).1

/-- One read. -/
def step (s : Service) (e : Input) : Option Service :=
  (action (s.readers e.client) e.data).bind fun action =>
    ((s.readers e.client).step e.data).bind fun reader =>
      (answer s.site e.outside action).map fun out =>
        { site := out.2
          readers := Function.update s.readers e.client reader
          answers := Function.update s.answers e.client (s.answers e.client ++ out.1) }

/-- Before the first read. -/
def new (memory : Nat → Memory) (server : Server) : Service where
  site := Site.new server
  readers i := ReadState.new (memory i).data
  answers _ := []

end Service

/-! ## One call on a fresh parser -/

namespace RequestParser

variable {p : RequestParser} {req : Request} {x : Bytes} {out : ParseOutcome}

/-- A whole text is decided: the request is the parser's own. -/
theorem parse_decided (hp : p.Fresh) (hx : x ≠ []) (hwhole : ¬ Truncated x)
    (h : p.parse req x = some out) (req' : Request) : p.parse req' x = some out := by
  have hempty : ¬ EmptyUri x := by
    intro hempty
    rw [parse_emptyUri hp req hempty] at h
    cases h
  have hfresh := (fresh_after_iff hp hempty h).mpr hwhole
  rcases (safe_fresh hp).run (w := x) hempty with ⟨p', hrun, hsafe⟩ | ⟨r, p', v, hrun⟩
  · -- left in the start state, it would have read nothing
    rw [parse, hrun] at h
    obtain rfl := Option.some.inj h
    have hinit : p' = init p'.remaining := hfresh
    rw [List.nil_append, hinit] at hsafe
    exact absurd hsafe.1 hx
  · rw [parse, hrun] at h ⊢
    exact h

/-- **The shared parser** gives a whole text the request of a parser of its own. -/
theorem requestOf_parse (hp : p.Fresh) (hx : x ≠ []) (hwhole : ¬ Truncated x)
    (h : p.parse req x = some out) : requestOf x = some out.request := by
  have hsame : SameInput p (init 0) := by
    rw [hp]
    exact sameInput_init _ 0
  have hseen := hsame.parse .cleared x
  rw [parse_decided hp hx hwhole h .cleared, Option.map_some] at hseen
  obtain ⟨out', hout', hout⟩ := Option.map_eq_some_iff.mp hseen.symm
  rw [requestOf, hout', Option.map_some]
  exact congrArg (fun seen : Result × Bytes × Request => some seen.2.2) hout

theorem fresh_parse (hp : p.Fresh) (hwhole : ¬ Truncated x) (h : p.parse req x = some out) :
    out.parser.Fresh := by
  have hempty : ¬ EmptyUri x := by
    intro hempty
    rw [parse_emptyUri hp req hempty] at h
    cases h
  exact (fresh_after_iff hp hempty h).mpr hwhole

end RequestParser

namespace Session

variable {s s' : Session} {request text : Bytes} {n : Nat} {a : Action}

/-- What each branch of a read does: only a request that goes on is not a call. -/
theorem handleRead_goodRequest (h : s.handleRead request n = (.goodRequest text, s')) : text ≠ [] := by
  rintro rfl
  rw [handleRead] at h
  split at h
  · next out hlong =>
    rw [longStringHandler] at hlong
    obtain ⟨hc, hlong⟩ := Option.ite_none_right_eq_some.mp hlong
    obtain rfl := Option.some.inj hlong
    have htext : s.httpBody ++ request = [] := Action.goodRequest.inj (Prod.mk.inj h).1
    have hreq : request = [] := (List.append_eq_nil_iff.mp htext).2
    subst hreq
    simp [Utils.checkRequest_none (s := []) rfl] at hc
  · split at h
    · next hc =>
      have htext : s.httpBody ++ request = [] := Action.goodRequest.inj (Prod.mk.inj h).1
      have hreq : request = [] := (List.append_eq_nil_iff.mp htext).2
      subst hreq
      simp [Utils.complete, crlf] at hc
    · revert h
      dsimp only [badRequest]
      split_ifs <;> exact fun h => by cases h

/-- Only reads that start no call leave the buffer as it is. -/
theorem keepsData_of_call (h : s.handleRead request n = (a, s')) (ha : a ≠ .handleWrite) :
    ReadState.keepsData s request n = false := by
  rw [handleRead] at h
  rw [ReadState.keepsData]
  rcases hlong : s.longStringHandler request n with - | out
  · rw [hlong] at h
    dsimp only at h ⊢
    by_cases hc : (s.requestStart && Utils.complete request n) = true
    · rw [if_pos hc]
    · rw [if_neg hc] at h ⊢
      by_cases hline : (s.requestStart || Utils.checkRequestLine request) = true
      · rw [if_pos hline]
      · rw [if_neg hline] at h ⊢
        by_cases hcrlf : (!s.requestStart && Utils.filterCRLF request == 0) = true
        · rw [if_pos hcrlf] at h
          exact absurd (Prod.mk.inj h).1.symm ha
        · exact Bool.eq_false_iff.mpr hcrlf
  · rfl

end Session

/-! ## The simulation -/

/-- The answer of a thread that has not run. -/
def Operation.owed : Operation → List (List Write)
  | .accept _ => []
  | .read _ => []
  | .write _ => []
  | .thread _ request => [badResponse request]

/-- The buffer when the session reads again: a thread clears it before it writes. -/
def Operation.nextBuffer (op : Operation) (b : Buffer) : Buffer :=
  if op.owed = [] then b else .cleared

namespace Process

variable {memory : Nat → Memory} {p q : Process} {s s' : Service} {e : Event}

/-- The operation that a session waits for. -/
def waiting (p : Process) (i : Nat) : Option Operation :=
  Custody.holder Operation.session p.pending i

/-- What has been written to the socket of a session, response by response. -/
def written (p : Process) (i : Nat) : List (List Write) :=
  p.sent.filterMap fun out => if out.1 = i then some out.2 else none

/-- The answer that a session is owed. -/
def owed (p : Process) (i : Nat) : List (List Write) := ((p.waiting i).map Operation.owed).getD []

theorem owed_of_waiting {i : Nat} {op : Operation} (h : p.waiting i = some op) : p.owed i = op.owed := by
  rw [owed, h]
  rfl

/-- The service has the same handlers, each client's framing state is that of its session, and its
answers are what has been written and what is owed. -/
structure Shows (memory : Nat → Memory) (p : Process) (s : Service) : Prop where
  custody : Custody.Accounted Operation.session p.sessions p.pending
  fresh : p.reqParser.Fresh
  site : s.site = p.site
  reader : ∀ i c op, p.Live i c → p.waiting i = some op →
    (s.readers i).session = c.session ∧ (s.readers i).buffer = op.nextBuffer c.buffer
  unborn : ∀ i, p.sessions.length ≤ i → s.readers i = ReadState.new (memory i).data
  answers : ∀ i, s.answers i = p.written i ++ p.owed i

namespace Shows

variable {op : Operation} {c : Connection}

theorem waiting (hs : Shows memory p s) (hop : op ∈ p.pending) : p.waiting op.session = some op :=
  (Custody.holder_eq_some hs.custody.nodup).mpr ⟨hop, rfl⟩

/-- **A session goes on waiting**: nothing changes for the others. -/
theorem await (hs : Shows memory p s) (hop : op ∈ p.pending) (op' : Operation)
    (hsession : op'.session = op.session)
    (hsessions : q.sessions = p.sessions.set op.session (some c))
    (hpending : q.pending = op' :: p.pending.erase op) (hfresh : q.reqParser.Fresh)
    (hsite : s'.site = q.site)
    (hreader : (s'.readers op.session).session = c.session ∧
      (s'.readers op.session).buffer = op'.nextBuffer c.buffer)
    (hanswers : s'.answers op.session = q.written op.session ++ op'.owed)
    (hothers : ∀ i, i ≠ op.session →
      s'.readers i = s.readers i ∧ s'.answers i = s.answers i ∧ q.written i = p.written i) :
    Shows memory q s' := by
  have hcustody : Custody.Accounted Operation.session q.sessions q.pending := by
    rw [hsessions, hpending]
    exact hs.custody.exchange hop c hsession
  have hself : q.waiting op.session = some op' := by
    rw [Process.waiting, hpending, ← hsession]
    exact Custody.holder_cons_self
  have hne : ∀ i, i ≠ op.session → q.waiting i = p.waiting i := by
    intro i hi
    rw [Process.waiting, hpending, Custody.holder_cons_ne (by rw [hsession]; exact hi.symm)]
    exact Custody.holder_erase_ne hs.custody.nodup hi.symm
  refine ⟨hcustody, hfresh, hsite, ?_, ?_, ?_⟩
  · intro i c' op'' hlive hwaiting
    rw [Live, hsessions] at hlive
    by_cases hi : i = op.session
    · subst hi
      rw [List.getElem?_set_self (hs.custody.lt_length hop)] at hlive
      obtain rfl := Option.some.inj (Option.some.inj hlive)
      obtain rfl := Option.some.inj (hself.symm.trans hwaiting)
      exact hreader
    · rw [List.getElem?_set_ne (Ne.symm hi)] at hlive
      rw [(hothers i hi).1]
      exact hs.reader i c' op'' hlive ((hne i hi).symm.trans hwaiting)
  · intro i hi
    rw [hsessions, List.length_set] at hi
    have hlt := hs.custody.lt_length hop
    rw [(hothers i (by omega)).1]
    exact hs.unborn i hi
  · intro i
    by_cases hi : i = op.session
    · subst hi
      rw [hanswers, owed_of_waiting hself]
    · obtain ⟨-, hanswer, hwritten⟩ := hothers i hi
      rw [hanswer, hwritten, hs.answers, owed, owed, hne i hi]

/-- **A session is deleted** while it is owed nothing. -/
theorem delete (hs : Shows memory p s) (hop : op ∈ p.pending) (howed : op.owed = [])
    (hsessions : q.sessions = p.sessions.set op.session none)
    (hpending : q.pending = p.pending.erase op) (hparser : q.reqParser = p.reqParser)
    (hsite : q.site = p.site) (hsent : q.sent = p.sent) : Shows memory q s := by
  have hcustody : Custody.Accounted Operation.session q.sessions q.pending := by
    rw [hsessions, hpending]
    exact hs.custody.free hop
  have hself : q.waiting op.session = none := by
    rw [Process.waiting, hpending]
    exact Custody.holder_erase_self hs.custody.nodup hop
  have hne : ∀ i, i ≠ op.session → q.waiting i = p.waiting i := by
    intro i hi
    rw [Process.waiting, hpending]
    exact Custody.holder_erase_ne hs.custody.nodup hi.symm
  refine ⟨hcustody, hparser ▸ hs.fresh, hs.site.trans hsite.symm, ?_, ?_, ?_⟩
  · intro i c' op' hlive hwaiting
    have hi : i ≠ op.session := by
      rintro rfl
      rw [hself] at hwaiting
      cases hwaiting
    rw [Live, hsessions, List.getElem?_set_ne (Ne.symm hi)] at hlive
    exact hs.reader i c' op' hlive ((hne i hi).symm.trans hwaiting)
  · intro i hi
    rw [hsessions, List.length_set] at hi
    exact hs.unborn i hi
  · intro i
    have hwritten : q.written i = p.written i := by rw [written, hsent, written]
    rw [hs.answers, hwritten]
    by_cases hi : i = op.session
    · subst hi
      rw [owed_of_waiting (hs.waiting hop), howed, owed, hself]
      rfl
    · rw [owed, owed, hne i hi]

/-- **A session is made** that nobody has written to. -/
theorem startAccept (hs : Shows memory p s) : Shows memory (p.startAccept memory) s := by
  have halloc := hs.custody.alloc (t := .accept p.sessions.length) (.new (memory p.sessions.length)) rfl
  have hself : (p.startAccept memory).waiting p.sessions.length = some (.accept p.sessions.length) :=
    Custody.holder_cons_self (t := Operation.accept p.sessions.length)
  have hne : ∀ i, i ≠ p.sessions.length → (p.startAccept memory).waiting i = p.waiting i := fun i hi =>
    Custody.holder_cons_ne (t := Operation.accept p.sessions.length) hi.symm
  refine ⟨halloc, hs.fresh, hs.site, ?_, ?_, ?_⟩
  · intro i c op hlive hwaiting
    rw [Live, Process.startAccept] at hlive
    dsimp only at hlive
    by_cases hi : i = p.sessions.length
    · subst hi
      rw [List.getElem?_append_right (Nat.le_refl _), Nat.sub_self] at hlive
      obtain rfl := Option.some.inj (Option.some.inj hlive)
      obtain rfl := Option.some.inj (hself.symm.trans hwaiting)
      rw [hs.unborn _ (Nat.le_refl _)]
      exact ⟨rfl, rfl⟩
    · have hlt := (List.getElem?_eq_some_iff.mp hlive).1
      rw [List.length_append, List.length_singleton] at hlt
      rw [List.getElem?_append_left (by omega)] at hlive
      exact hs.reader i c op hlive ((hne i hi).symm.trans hwaiting)
  · intro i hi
    rw [Process.startAccept] at hi
    dsimp only at hi
    rw [List.length_append, List.length_singleton] at hi
    exact hs.unborn i (by omega)
  · intro i
    have hwritten : (p.startAccept memory).written i = p.written i := rfl
    rw [hs.answers, hwritten]
    by_cases hi : i = p.sessions.length
    · subst hi
      rw [owed_of_waiting hself, owed, Process.waiting, hs.custody.holder_length (Nat.le_refl _)]
      rfl
    · rw [owed, owed, hne i hi]

end Shows

/-! ## Reads -/

section Reads

variable {c c' : Connection} {x : Chunk} {a : Session.Action} {r : ReadState}

/-- The framing state of a client follows the read of its session. -/
theorem Reads.follows (h : Reads c x a c') (hsession : r.session = c.session)
    (hbuffer : r.buffer = c.buffer) :
    Service.action r x = some a ∧ ∃ r', r.step x = some r' ∧ r'.session = c'.session ∧
      r'.buffer = if a = .handleWrite then c'.buffer else .cleared := by
  obtain ⟨request, hstring, hread, hc'⟩ := h
  rw [← hbuffer] at hstring
  rw [← hsession] at hread
  refine ⟨by rw [Service.action, hstring, Option.map_some, hread], _,
    by rw [ReadState.step, hstring, Option.map_some], ?_, ?_⟩
  · dsimp only
    rw [hread]
  · dsimp only
    rw [hc']
    dsimp only
    by_cases ha : a = .handleWrite
    · rw [if_pos ha, ← hsession, ← hbuffer]
      rcases ReadState.keepsData r.session request x.bytes.length with - | - <;> simp [ha]
    · rw [if_neg ha, Session.keepsData_of_call hread ha]
      rfl

theorem Reads.ne_nil {text : Bytes} (h : Reads c x (.goodRequest text) c') : text ≠ [] := by
  obtain ⟨request, -, hread, -⟩ := h
  exact Session.handleRead_goodRequest hread

end Reads

end Process

/-- The text that a call parses. -/
def Session.Action.text : Session.Action → Option Bytes
  | .goodRequest text => some text
  | .badRequest text => some text
  | .handleWrite => none

/-- The reads of an event. -/
def Event.inputs : Event → List Service.Input
  | .accepted _ _ => []
  | .acceptFailed _ _ => []
  | .read i x outside => [⟨i, x, outside⟩]
  | .readFailed _ _ => []
  | .written _ => []
  | .writeFailed _ _ => []
  | .thread _ _ => []

namespace Process

variable {memory : Nat → Memory} {p q : Process} {s : Service} {e : Event}

/-- The text that the handler of an event parses, if it does. -/
def callText (p : Process) : Event → Option Bytes
  | .accepted _ _ => none
  | .acceptFailed _ _ => none
  | .read i x _ => (p.connection i).toOption.bind fun c =>
    (c.buffer.read x).cString.bind fun request =>
      (c.session.handleRead request x.bytes.length).1.text
  | .readFailed _ _ => none
  | .written _ => none
  | .writeFailed _ _ => none
  | .thread _ _ => none

/-- No call of the event ends in the middle of a request. -/
def Whole (p : Process) (e : Event) : Prop :=
  ∀ text, p.callText e = some text → ¬ RequestParser.Truncated text

theorem Reads.callText {i : Nat} {c c' : Connection} {x : Chunk} {a : Session.Action}
    (hlive : p.Live i c) (h : Reads c x a c') (outside : Outside) :
    p.callText (.read i x outside) = a.text := by
  obtain ⟨request, hstring, hread, -⟩ := h
  rw [Process.callText, connection_live hlive]
  change ((c.buffer.read x).cString.bind fun request => _) = _
  rw [hstring, Option.bind_some, hread]

theorem written_self {i : Nat} {out : List Write} (h : q.sent = p.sent ++ [(i, out)]) :
    q.written i = p.written i ++ [out] := by
  rw [written, h, List.filterMap_append, written]
  congr 1
  simp

theorem written_ne {i j : Nat} {out : List Write} (h : q.sent = p.sent ++ [(i, out)]) (hj : j ≠ i) :
    q.written j = p.written j := by
  rw [written, h, List.filterMap_append, written]
  simp [hj.symm]

/-- A read of a session is a step of the service. -/
theorem Shows.call {i : Nat} {c c' c'' : Connection} {x : Chunk} {outside : Outside}
    {a : Session.Action} {writes : List (List Write)} {site : Site} (hs : Shows memory p s)
    (hop : .read i ∈ p.pending) (op' : Operation) (hsession : op'.session = i) (hlive : p.Live i c)
    (hreads : Reads c x a c') (hanswer : Service.answer s.site outside a = some (writes, site))
    (hsessions : q.sessions = p.sessions.set i (some c''))
    (hpending : q.pending = op' :: p.pending.erase (.read i)) (hfresh : q.reqParser.Fresh)
    (hsite : site = q.site) (hframed : c''.session = c'.session)
    (hbuffer : op'.nextBuffer c''.buffer = if a = .handleWrite then c'.buffer else .cleared)
    (hself : q.written i ++ op'.owed = p.written i ++ writes)
    (hothers : ∀ j, j ≠ i → q.written j = p.written j) :
    ∃ s', [(⟨i, x, outside⟩ : Service.Input)].foldlM Service.step s = some s' ∧ Shows memory q s' := by
  have hwaiting : p.waiting i = some (.read i) := hs.waiting hop
  obtain ⟨hrsession, hrbuffer⟩ := hs.reader i c _ hlive hwaiting
  obtain ⟨haction, r, hstep, hrsession', hrbuffer'⟩ := hreads.follows hrsession hrbuffer
  refine ⟨⟨site, Function.update s.readers i r, Function.update s.answers i (s.answers i ++ writes)⟩,
    ?_, hs.await hop op' hsession hsessions hpending hfresh hsite ?_ ?_ fun j hj => ?_⟩
  · rw [List.foldlM_cons, Service.step]
    dsimp only
    rw [haction, Option.bind_some, hstep, Option.bind_some, hanswer]
    rfl
  · change (Function.update s.readers i r i).session = _ ∧ (Function.update s.readers i r i).buffer = _
    rw [Function.update_self, hbuffer]
    exact ⟨hrsession'.trans hframed.symm, hrbuffer'⟩
  · change Function.update s.answers i _ i = q.written i ++ _
    rw [Function.update_self, hs.answers, owed_of_waiting hwaiting, hself]
    exact congrArg (· ++ writes) (List.append_nil _)
  · replace hj : j ≠ i := hj
    dsimp only
    rw [Function.update_of_ne hj, Function.update_of_ne hj]
    exact ⟨rfl, rfl, hothers j hj⟩

/-- **One handler** is one step of the service for a read, and none for any other event. -/
theorem Handles.shows (h : Handles memory (p.complete e.operation) e q)
    (hs : Shows memory p s) (hop : e.operation ∈ p.pending) (hwhole : p.Whole e) :
    ∃ s', e.inputs.foldlM Service.step s = some s' ∧ Shows memory q s' := by
  have hwaiting := hs.waiting hop
  cases h with
  | @accepted i c ip hlive =>
    have hreader := hs.reader i c _ hlive hwaiting
    refine ⟨s, rfl, Shows.startAccept (hs.await hop (.read i) rfl rfl rfl hs.fresh hs.site hreader
      ?_ fun j _ => ⟨rfl, rfl, rfl⟩)⟩
    rw [hs.answers, owed_of_waiting hwaiting]
    rfl
  | acceptFailed hlive =>
    exact ⟨s, rfl, Shows.startAccept (hs.delete hop rfl rfl rfl rfl rfl rfl)⟩
  | readFailed hlive => exact ⟨s, rfl, hs.delete hop rfl rfl rfl rfl rfl rfl⟩
  | writeFailed hlive => exact ⟨s, rfl, hs.delete hop rfl rfl rfl rfl rfl rfl⟩
  | @written i c hlive =>
    have hreader := hs.reader i c _ hlive hwaiting
    refine ⟨s, rfl, hs.await hop (.read i) rfl rfl rfl hs.fresh hs.site hreader ?_
      fun j _ => ⟨rfl, rfl, rfl⟩⟩
    rw [hs.answers, owed_of_waiting hwaiting]
    rfl
  | @thread i c request response hlive hresponse =>
    have hreader := hs.reader i c _ hlive hwaiting
    obtain rfl := Option.some.inj hresponse
    refine ⟨s, rfl, hs.await hop (.write i) rfl rfl rfl hs.fresh hs.site hreader ?_
      fun j hj => ⟨rfl, rfl, ?_⟩⟩
    · rw [hs.answers, owed_of_waiting hwaiting]
      exact (written_self (p := p) rfl).symm.trans (List.append_nil _).symm
    · exact written_ne rfl hj
  | @more i c c' x outside hlive hreads =>
    refine hs.call hop (.read i) rfl hlive hreads rfl rfl rfl hs.fresh hs.site rfl ?_ rfl fun _ _ => rfl
    rw [if_pos rfl]
    rfl
  | @good i c c' x outside text out response site hlive hreads hparse hvisit =>
    have htext := hwhole text (hreads.callText hlive outside)
    have hrequest := RequestParser.requestOf_parse hs.fresh hreads.ne_nil htext hparse
    have hanswer : Service.answer s.site outside (.goodRequest text) = some ([dispatch response], site) := by
      rw [Service.answer, hrequest, Option.bind_some, hs.site]
      exact congrArg (Option.map fun out => ([dispatch out.1], out.2)) hvisit
    refine hs.call hop (.write i) rfl hlive hreads hanswer rfl rfl
      (RequestParser.fresh_parse hs.fresh htext hparse) rfl rfl rfl ?_ fun j hj => written_ne rfl hj
    exact (List.append_nil _).trans (written_self (p := p) rfl)
  | @bad i c c' x outside text out hlive hreads hparse =>
    have htext := hwhole text (hreads.callText hlive outside)
    exact hs.call hop (.thread i text) rfl hlive hreads rfl rfl rfl
      (RequestParser.fresh_parse hs.fresh htext hparse) hs.site rfl rfl rfl fun _ _ => rfl

/-! ## Runs -/

theorem shows_start (memory : Nat → Memory) (server : Server) (remaining : UInt64) (portNum : Int) :
    Shows memory (start memory server remaining portNum) (Service.new memory server) := by
  refine Shows.startAccept ⟨Custody.accounted_nil, RequestParser.fresh_init remaining, rfl, ?_,
    fun _ _ => rfl, fun _ => rfl⟩
  intro i c op hlive
  simp [Live] at hlive

section Run

variable {server : Server} {remaining : UInt64} {portNum : Int} {events : List Event}

/-- A run of the process shows a run of the service. -/
theorem shows_run
    (hwhole : ∀ e ∈ Machine.trace (step memory) (start memory server remaining portNum) events,
      e.1.Whole e.2)
    (hrun : events.foldlM (step memory) (start memory server remaining portNum) = some p) :
    ∃ s, (events.flatMap Event.inputs).foldlM Service.step (Service.new memory server) = some s ∧
      Shows memory p s := by
  have hstep : ∀ p e q s, Shows memory p s → p.Whole e → step memory p e = some q →
      ∃ s', e.inputs.foldlM Service.step s = some s' ∧ Shows memory q s' := by
    intro p e q s hs hwhole h
    obtain ⟨hop, hhandles⟩ := step_cases h
    exact hhandles.shows hs hop hwhole
  exact Machine.simulates (fun e : Process × Event => e.1.Whole e.2) hstep
    (shows_start memory server remaining portNum) hwhole hrun

/-- No session is owed two answers. -/
theorem length_owed (p : Process) (i : Nat) : (p.owed i).length ≤ 1 := by
  rw [owed]
  rcases p.waiting i with - | op
  · exact Nat.zero_le _
  · cases op <;> simp [Operation.owed]

/-- **The process refines the service**: in a run in which no call ends in the middle of a request,
the process has sent to each client the answers of the service to the same reads, in their order
and each of them once, but for at most one that a thread still owes; and its handlers are where
the service has them. -/
theorem service_run
    (hwhole : ∀ e ∈ Machine.trace (step memory) (start memory server remaining portNum) events,
      e.1.Whole e.2)
    (hrun : events.foldlM (step memory) (start memory server remaining portNum) = some p) :
    ∃ s, (events.flatMap Event.inputs).foldlM Service.step (Service.new memory server) = some s ∧
      s.site = p.site ∧ ∀ i, s.answers i = p.written i ++ p.owed i ∧ (p.owed i).length ≤ 1 := by
  obtain ⟨s, hs, hshows⟩ := shows_run hwhole hrun
  exact ⟨s, hs, hshows.site, fun i => ⟨hshows.answers i, p.length_owed i⟩⟩

end Run

/-- A server that is only asked for its health. -/
def healthServer : Server where
  handlersTackers := (∅ : StringMap (Option Handler)).insert (str "\"/\"") (some .health)
  locationToRoot := ∅

/-- Memory that happens to be zero. -/
def zeroMemory (_ : Nat) : Memory := ⟨.cleared, .get⟩

/-- A client asks, and gets its answer. -/
def oneClient : List Event :=
  [.accepted 0 (some (str "127.0.0.1")),
    .read 0 ReadState.shortRequest ⟨⟨[], fun _ => none⟩, ⟨0, 0, 0, 0⟩, fun _ => .failed, [], true⟩,
    .written 0]

/-- A text that leaves a new parser new is whole. -/
theorem not_truncated_of_parse {x : Bytes}
    (h : ((RequestParser.init 0).parse .cleared x).map (fun out => decide out.parser.Fresh) = some true) :
    ¬ RequestParser.Truncated x := by
  obtain ⟨out, hout, hfresh⟩ := Option.map_eq_some_iff.mp h
  have hempty : ¬ EmptyUri x := by
    intro hempty
    rw [RequestParser.parse_emptyUri (RequestParser.fresh_init 0) _ hempty] at hout
    cases hout
  exact (RequestParser.fresh_after_iff (RequestParser.fresh_init 0) hempty hout).mp (of_decide_eq_true hfresh)

/-- A run whose only call is for the short request. -/
theorem whole_of_shortRequest {server : Server} {events : List Event}
    (h : (Machine.trace (step zeroMemory) (start zeroMemory server 0 80) events).filterMap
      (fun e => e.1.callText e.2) = [ReadState.shortRequest.bytes]) :
    ∀ e ∈ Machine.trace (step zeroMemory) (start zeroMemory server 0 80) events, e.1.Whole e.2 := by
  intro e he text htext
  have hmem : text ∈ (Machine.trace (step zeroMemory) (start zeroMemory server 0 80) events).filterMap
      fun e => e.1.callText e.2 := List.mem_filterMap.mpr ⟨e, he, htext⟩
  rw [h, List.mem_singleton] at hmem
  rw [hmem]
  exact not_truncated_of_parse (by decide +kernel)

/-- The run of one client ends, and its call is for the short request. -/
theorem exists_oneClient :
    ∃ p, oneClient.foldlM (step zeroMemory) (start zeroMemory healthServer 0 80) = some p :=
  Option.isSome_iff_exists.mp (by decide +kernel)

theorem whole_oneClient :
    ∀ e ∈ Machine.trace (step zeroMemory) (start zeroMemory healthServer 0 80) oneClient, e.1.Whole e.2 :=
  whole_of_shortRequest (by decide +kernel)

/-- The theorem at the run of one client. -/
theorem service_run_oneClient : ∃ p, oneClient.foldlM (step zeroMemory) (start zeroMemory healthServer 0 80) =
    some p ∧ ∃ s, (oneClient.flatMap Event.inputs).foldlM Service.step (Service.new zeroMemory healthServer) =
      some s ∧ s.site = p.site ∧ ∀ i, s.answers i = p.written i ++ p.owed i ∧ (p.owed i).length ≤ 1 := by
  obtain ⟨p, hp⟩ := exists_oneClient
  exact ⟨p, hp, service_run whole_oneClient hp⟩

end Process

end LowKeyWebServer
