import LowKeyWebServer.AccessLog
import LowKeyWebServer.RequestHistory
import LowKeyWebServer.ResponseHead

/-!
# The status page

`readStatus` reads the page of the status handler back into its records. The requests of the event
loop have no newline in their URI (`TextUri.parse`), so the records of a page are those of the requests,
and the page agrees with the access log: `statusPage_run`.
-/

namespace LowKeyWebServer

namespace StatusHandler

/-! ## Reading the page -/

/-- A record as the page shows it. -/
structure Record : Type where
  uri : Bytes
  handlerName : Bytes
  code : Bytes
  deriving DecidableEq

/-- What a line says, behind its key. -/
def readLine (key line : Bytes) : Option Bytes :=
  if key.isPrefixOf line then some (line.drop key.length) else none

/-- The records, four lines each; nothing follows the last newline. -/
def readRecords : List Bytes → Option (List Record)
  | [] => none
  | [line] => if line = [] then some [] else none
  | [_, _] => none
  | [_, _, _] => none
  | uri :: handlerName :: code :: line :: lines =>
    if line = [] then do
      let r : Record := ⟨← readLine (str "URI: ") uri, ← readLine (str "Handler: ") handlerName,
        ← readLine (str "Status Code: ") code⟩
      (readRecords lines).map (r :: ·)
    else none

/-- The page: how many records it counts, and the records. -/
def readStatus (page : Bytes) : Option (Bytes × List Record) :=
  match page.splitOn newline with
  | total :: line :: lines =>
    if line = [] then do
      let count ← readLine (str "Total Requests: ") total
      (readRecords lines).map (count, ·)
    else none
  | _ => none

theorem readLine_append (key text : Bytes) : readLine key (key ++ text) = some text := by
  rw [readLine, if_pos (List.isPrefixOf_iff_prefix.mpr (List.prefix_append key text)), List.drop_left]

namespace Record

/-- The text of a record. -/
def text (r : Record) : Bytes := recordText r.uri r.handlerName r.code

/-- The record has a line for each of its parts. -/
structure Lines (r : Record) : Prop where
  uri : newline ∉ r.uri
  handlerName : newline ∉ r.handlerName
  named : r.handlerName ≠ []
  code : newline ∉ r.code

variable {r : Record}

theorem splitOn_text (hr : r.Lines) (rest : Bytes) : (r.text ++ rest).splitOn newline =
    (str "URI: " ++ r.uri) :: (str "Handler: " ++ r.handlerName) :: (str "Status Code: " ++ r.code) ::
      [] :: rest.splitOn newline := by
  have htext : r.text ++ rest = (str "URI: " ++ r.uri) ++ newline :: ((str "Handler: " ++ r.handlerName) ++
      newline :: ((str "Status Code: " ++ r.code) ++ newline :: ([] ++ newline :: rest))) := by
    rw [text, recordText_eq, handlerLine, if_neg hr.named]
    simp [str, newline]
  have huri : newline ∉ str "URI: " ++ r.uri := by
    rw [List.mem_append, not_or]
    exact ⟨by decide, hr.uri⟩
  have hname : newline ∉ str "Handler: " ++ r.handlerName := by
    rw [List.mem_append, not_or]
    exact ⟨by decide, hr.handlerName⟩
  have hcode : newline ∉ str "Status Code: " ++ r.code := by
    rw [List.mem_append, not_or]
    exact ⟨by decide, hr.code⟩
  rw [htext, List.splitOn_append_cons_self_of_not_mem huri,
    List.splitOn_append_cons_self_of_not_mem hname, List.splitOn_append_cons_self_of_not_mem hcode,
    List.splitOn_append_cons_self_of_not_mem List.not_mem_nil]

theorem readRecords_text (hr : r.Lines) (rest : Bytes) : readRecords ((r.text ++ rest).splitOn newline) =
    (readRecords (rest.splitOn newline)).map (r :: ·) := by
  rw [splitOn_text hr, readRecords, if_pos rfl, readLine_append, readLine_append, readLine_append]
  rfl

end Record

/-- **The records are read back.** -/
theorem readRecords_flatten {records : List Record} (h : ∀ r ∈ records, r.Lines) :
    readRecords ((records.map Record.text).flatten.splitOn newline) = some records := by
  induction records with
  | nil => rfl
  | cons r records ih =>
    rw [List.forall_mem_cons] at h
    rw [List.map_cons, List.flatten_cons, Record.readRecords_text h.1, ih h.2]
    rfl

theorem newline_not_mem_decimal (n : Nat) : newline ∉ str (toString n) := fun h =>
  (plainValue_length n newline h).2 rfl

/-- **The page is read back.** -/
theorem readStatus_getAllStatus {records : List Record} (h : ∀ r ∈ records, r.Lines) :
    readStatus (getAllStatus (records.map Record.text)) =
      some (str (toString records.length), records) := by
  have hpage : getAllStatus (records.map Record.text) =
      (str "Total Requests: " ++ str (toString records.length)) ++ newline ::
        ([] ++ newline :: (records.map Record.text).flatten) := by
    rw [getAllStatus, List.length_map]
    simp [str, newline]
  have htotal : newline ∉ str "Total Requests: " ++ str (toString records.length) := by
    rw [List.mem_append, not_or]
    exact ⟨by decide, newline_not_mem_decimal _⟩
  rw [readStatus, hpage, List.splitOn_append_cons_self_of_not_mem htotal,
    List.splitOn_append_cons_self_of_not_mem List.not_mem_nil]
  dsimp only
  rw [if_pos rfl, readLine_append, readRecords_flatten h]
  rfl

/-- A record without a name is shown with one. -/
theorem exists_record {uri handlerName code : Bytes} (huri : newline ∉ uri)
    (hname : newline ∉ handlerName) (hcode : newline ∉ code) :
    ∃ r : Record, r.Lines ∧ r.text = recordText uri handlerName code ∧ r.uri = uri ∧ r.code = code := by
  by_cases hnil : handlerName = []
  · subst hnil
    have hnone : newline ∉ str "None" ∧ str "None" ≠ [] := by decide
    refine ⟨⟨uri, str "None", code⟩, ⟨huri, hnone.1, hnone.2, hcode⟩, ?_, rfl, rfl⟩
    rw [Record.text, recordText, recordText, if_neg hnone.2, if_pos rfl]
    rfl
  · exact ⟨⟨uri, handlerName, code⟩, ⟨huri, hname, hnil, hcode⟩, rfl, rfl, rfl⟩

theorem newline_not_mem_decimalCode (code : Int) : newline ∉ decimalCode code := by
  cases code with
  | ofNat n => exact newline_not_mem_decimal n
  | negSucc n =>
    have hsign : decimalCode (.negSucc n) = str "-" ++ str (toString (n + 1)) := by
      change str ("-" ++ Nat.repr (n + 1)) = _
      rw [str, String.toList_append, List.map_append]
      rfl
    rw [hsign, List.mem_append, not_or]
    exact ⟨by decide, newline_not_mem_decimal _⟩

end StatusHandler

/-! ## The URI of a request -/

namespace RequestParser

variable {p p' : RequestParser} {a : Byte} {r : Result}

/-- The URI that has been read is of ordinary characters. -/
def TextUri (p : RequestParser) : Prop := ∀ c ∈ p.uri, TextByte c

/-- **One character** is added to the URI in one state only, and not if it is a control character. -/
theorem TextUri.next (hp : p.TextUri) (h : nextCharHandler p a = some (r, p')) : p'.TextUri := by
  obtain ⟨st, n, raw, path, ver, m, u, hs, b⟩ := p
  cases st <;> simp only [nextCharHandler] at h
  case uri =>
    split at h
    · obtain ⟨path', -, heq⟩ := Option.map_eq_some_iff.mp h
      cases heq
      exact hp
    · split at h
      · cases h
        exact hp
      · next htext =>
        cases h
        rw [isControlChar_eq, decide_eq_true_iff, not_not] at htext
        exact List.forall_mem_append.mpr ⟨hp, List.forall_mem_singleton.mpr htext⟩
  case headerLws | headerName | headerValue =>
    repeat' split at h
    all_goals
      first
      | cases h
        exact hp
      | obtain ⟨hs', -, heq⟩ := Option.map_eq_some_iff.mp h
        cases heq
        exact hp
  all_goals
    -- the URI stays as it is
    repeat' split at h
    all_goals
      cases h
      exact hp

theorem next_of_done (h : step p a = .done (some (r, p'))) : nextCharHandler p a = some (r, p') := by
  rw [step] at h
  split at h
  · cases h
  · cases h
  · next hnext =>
    rw [hnext]
    exact Reader.Step.done.inj h

/-- **A call** keeps it, and the request it makes has such a URI. -/
theorem TextUri.parse {req : Request} {s : Bytes} {out : ParseOutcome} (hp : p.TextUri)
    (hreq : ∀ c ∈ req.uri, TextByte c) (h : p.parse req s = some out) :
    out.parser.TextUri ∧ ∀ c ∈ out.request.uri, TextByte c := by
  have hpending : ∀ (x : Bytes) (q : RequestParser), Reader.run step p x = .pending q → q.TextUri := by
    have hstep : ∀ (_ : Bytes) (q : RequestParser) (a : Byte) (q' : RequestParser), q.TextUri →
        step q a = .more q' → q'.TextUri := fun _ _ _ _ hq hmore => hq.next (next_of_more hmore)
    exact fun x q hrun => Reader.pending_rule hstep [] hp hrun
  rw [RequestParser.parse] at h
  split at h
  · next q hrun =>
    obtain rfl := Option.some.inj h
    exact ⟨hpending s q hrun, hreq⟩
  · cases h
  · next r q rest hrun =>
    obtain rfl := Option.some.inj h
    obtain ⟨u, a, -, q', hu, hdone⟩ := Reader.exists_of_decided hrun
    exact ⟨fun _ hc => absurd hc List.not_mem_nil, (hpending u q' hu).next (next_of_done hdone)⟩

end RequestParser

/-! ## The page and the log -/

open StatusHandler

/-- What the log says of the request of a record. -/
def StatusHandler.Record.entry (r : Record) : Bytes × Bytes :=
  (str "[Request_Path: " ++ r.uri ++ str "]", str "[Response_Code: " ++ r.code ++ str "]")

namespace Logger

variable {l l' : Logger}

/-- The entries of valid requests. The records that their handlers write have no code. -/
def validEntries (l : Logger) : List (Bytes × Bytes) :=
  (l.records.filter fun r => r.severity = .info).filterMap LogRecord.entry

theorem Silent.validEntries (h : Silent l l') : l'.validEntries = l.validEntries := by
  obtain ⟨r, hr, hrecords⟩ := h.records
  rw [Logger.validEntries, hrecords, List.filter_append, List.filterMap_append, Logger.validEntries]
  by_cases hinfo : r.severity = .info <;> simp [hinfo, hr]

theorem validEntries_validRequest (h : l.Idle) (path : Bytes) (messages : List (Severity × Bytes))
    (code : Int) :
    (l.validRequest path messages code).validEntries = l.validEntries ++ [accessEntry path code] := by
  have hhandler : ((l.handlerRecords path messages).filter fun r => r.severity = .info).filterMap
      LogRecord.entry = [] :=
    List.filterMap_eq_nil_iff.mpr fun r hr => h.handlerRecords (List.mem_filter.mp hr).1
  have hown : [l.validRecord path code].filter (fun r => r.severity = .info) =
      [l.validRecord path code] := rfl
  rw [validEntries, records_validRequest, List.filter_append, List.filter_append, List.filterMap_append,
    List.filterMap_append, hhandler, hown, List.filterMap_cons_some (l.entry_validRecord path code)]
  rfl

theorem validEntries_invalidRequest (l : Logger) (path request : Bytes) :
    (l.invalidRequest path request).validEntries = l.validEntries := by
  rw [validEntries, invalidRequest, reset, Logger.write, List.filter_append, List.filterMap_append]
  simp [setStatus, setPath, validEntries]

end Logger

/-- The text of a good request. -/
def Session.Action.goodText : Session.Action → Option Bytes
  | .goodRequest text => some text
  | .badRequest _ => none
  | .handleWrite => none

namespace Process

variable {memory : Nat → Memory} {p q : Process} {e : Event}

/-- What the handler of an event hands to the handlers, if it does. -/
def visitOf (p : Process) : Event → Option Visit
  | .accepted _ _ => none
  | .acceptFailed _ _ => none
  | .read i x outside => do
    let c ← (p.connection i).toOption
    let request ← (c.buffer.read x).cString
    let text ← (c.session.handleRead request x.bytes.length).1.goodText
    let out ← p.reqParser.parse c.request text
    some ⟨out.request, outside.fs, outside.clock, outside.upstream⟩
  | .readFailed _ _ => none
  | .written _ => none
  | .writeFailed _ _ => none
  | .thread _ _ => none

/-- The request of the event is not on one of the paths without the right record. -/
def RecordsVisit (p : Process) (e : Event) : Prop :=
  ∀ v, p.visitOf e = some v → p.site.RecordsVisit v

theorem Reads.visitOf {i : Nat} {c c' : Connection} {x : Chunk} {text : Bytes}
    {out : RequestParser.ParseOutcome} (hlive : p.Live i c) (h : Reads c x (.goodRequest text) c')
    (hparse : p.reqParser.parse c.request text = some out) (outside : Outside) :
    p.visitOf (.read i x outside) =
      some ⟨out.request, outside.fs, outside.clock, outside.upstream⟩ := by
  obtain ⟨request, hstring, hread, -⟩ := h
  rw [Process.visitOf, connection_live hlive]
  simp [Except.toOption, hstring, hread, Session.Action.goodText, hparse]

/-- The records are those of the valid requests of the log, each with its lines. -/
structure Paged (p : Process) : Prop where
  quiet : p.Quiet
  uri : p.reqParser.TextUri
  page : ∃ records : List Record, (∀ r ∈ records, r.Lines) ∧
    p.site.history.status = records.map Record.text ∧ records.map Record.entry = p.log.validEntries

theorem Paged.of_same (hp : p.Paged) (hq : q.Quiet) (huri : q.reqParser.TextUri)
    (hsite : q.site = p.site) (hlog : q.log.validEntries = p.log.validEntries) : q.Paged := by
  refine ⟨hq, huri, ?_⟩
  rw [hsite, hlog]
  exact hp.page

/-- A request that gains its record adds its entry. -/
theorem gains_page {s s' : History} {uri : Bytes} {code : Int} {records : List Record}
    (hgains : Gains s s' uri code) (huri : newline ∉ uri) (hlines : ∀ r ∈ records, r.Lines)
    (hstatus : s.status = records.map Record.text) :
    ∃ r : Record, (∀ r' ∈ records ++ [r], r'.Lines) ∧ s'.status = (records ++ [r]).map Record.text ∧
      r.entry = accessEntry uri code := by
  obtain ⟨handlerName, hname, hrecord⟩ := hgains
  obtain ⟨r, hr, htext, rfl, hcode⟩ := exists_record huri hname (newline_not_mem_decimalCode code)
  refine ⟨r, List.forall_mem_append.mpr ⟨hlines, List.forall_mem_singleton.mpr hr⟩, ?_, ?_⟩
  · rw [hrecord, hstatus, List.map_append, List.map_singleton, htext]
  · rw [Record.entry, hcode, accessEntry]

theorem newline_not_mem_uri {uri : Bytes} (h : ∀ c ∈ uri, TextByte c) : newline ∉ uri := fun hmem =>
  absurd (h newline hmem) (by decide)

/-- **One handler** adds the same to the records and to the log. -/
theorem Handles.paged (h : Handles memory p e q) (hp : p.Paged) (hrec : p.RecordsVisit e) : q.Paged := by
  have hquiet := h.quiet hp.quiet
  have hidle := hp.quiet.idle
  cases h with
  | accepted hlive => exact hp.of_same hquiet hp.uri rfl (hidle.accepted _).validEntries
  | acceptFailed hlive => exact hp.of_same hquiet hp.uri rfl (hidle.notAccepted _).validEntries
  | readFailed hlive | writeFailed hlive =>
    exact hp.of_same hquiet hp.uri rfl (hidle.disconnected _).validEntries
  | written hlive | thread hlive hresponse | more hlive hreads => exact hp.of_same hquiet hp.uri rfl rfl
  | @bad i c c' x outside text out hlive hreads hparse =>
    have hcleared : ∀ b ∈ c.request.uri, TextByte b := by
      rw [hp.quiet.cleared i c hlive]
      exact fun _ hb => absurd hb List.not_mem_nil
    exact hp.of_same hquiet (hp.uri.parse hcleared hparse).1 rfl (Logger.validEntries_invalidRequest _ _ _)
  | @good i c c' x outside text out response site hlive hreads hparse hvisit =>
    have hcleared : ∀ b ∈ c.request.uri, TextByte b := by
      rw [hp.quiet.cleared i c hlive]
      exact fun _ hb => absurd hb List.not_mem_nil
    obtain ⟨hparser, huri⟩ := hp.uri.parse hcleared hparse
    have hgains := (Site.recorded_iff p.site _).mpr (hrec _ (hreads.visitOf hlive hparse outside))
      response site hvisit
    obtain ⟨records, hlines, hstatus, hentries⟩ := hp.page
    obtain ⟨r, hr, htext, hentry⟩ := gains_page hgains (newline_not_mem_uri huri) hlines hstatus
    refine ⟨hquiet, hparser, records ++ [r], hr, htext, ?_⟩
    rw [List.map_append, hentries, List.map_singleton, hentry]
    exact (Logger.validEntries_validRequest hidle _ _ _).symm

theorem paged_start (server : Server) (remaining : UInt64) (portNum : Int) :
    (start memory server remaining portNum).Paged :=
  ⟨(quiet_start server remaining portNum).1, fun _ hc => absurd hc List.not_mem_nil, [],
    fun _ hr => absurd hr List.not_mem_nil, rfl, rfl⟩

theorem paged_step (hp : p.Paged) (hrec : p.RecordsVisit e) (h : p.step memory e = some q) : q.Paged := by
  obtain ⟨-, hhandles⟩ := step_cases h
  exact hhandles.paged ⟨⟨hp.quiet.idle, hp.quiet.cleared⟩, hp.uri, hp.page⟩ hrec

/-- **The status page agrees with the access log**: while every request gains its record, a page that
the status handler serves reads back as the valid requests of the log, in their order, and the request
for the page itself. -/
theorem statusPage_run {server : Server} {remaining : UInt64} {portNum : Int} {events : List Event}
    (hrec : ∀ e ∈ Machine.trace (step memory) (start memory server remaining portNum) events,
      e.1.RecordsVisit e.2)
    (hrun : events.foldlM (step memory) (start memory server remaining portNum) = some p)
    {v : Visit} (huri : ∀ c ∈ v.request.uri, TextByte c) (hcallee : p.site.callee v = some .status)
    {res : Response} {site : Site} (hvisit : p.site.visit v = some (res, site)) :
    ∃ records, readStatus res.body = some (str (toString records.length), records) ∧
      records.map Record.entry = p.log.validEntries ++ [accessEntry v.request.uri Response.ok] := by
  have hp : p.Paged := Machine.invariant_end (fun e : Process × Event => e.1.RecordsVisit e.2)
    (fun _ _ _ hp hrec h => paged_step hp hrec h) (paged_start server remaining portNum) hrec hrun
  obtain ⟨records, hlines, hstatus, hentries⟩ := hp.page
  obtain ⟨handler, hcallee', hreq, -⟩ := Site.visit_eq_some hvisit
  obtain rfl := Option.some.inj (hcallee.symm.trans hcallee')
  have hgains : Gains p.site.history site.history v.request.uri Response.ok := by
    have hplain := Handler.gains_plain (by decide) (by decide) hreq
    obtain ⟨rfl, -⟩ := Prod.mk.inj (Option.some.inj hreq)
    exact hplain
  obtain ⟨r, hr, htext, hentry⟩ := gains_page hgains (newline_not_mem_uri huri) hlines hstatus
  refine ⟨records ++ [r], ?_, by rw [List.map_append, hentries, List.map_singleton, hentry]⟩
  rw [← readStatus_getAllStatus hr, ← htext]
  obtain ⟨rfl, hhistory⟩ := Prod.mk.inj (Option.some.inj hreq)
  rw [← hhistory]
  rfl

/-- The handlers of the requests of a run. -/
theorem mem_callees {server : Server} {events : List Event} (handlers : List Handler)
    (h : (Machine.trace (step zeroMemory) (start zeroMemory server 0 80) events).filterMap
      (fun e => (e.1.visitOf e.2).bind e.1.site.callee) = handlers)
    {e : Process × Event} (he : e ∈ Machine.trace (step zeroMemory) (start zeroMemory server 0 80) events)
    {v : Visit} (hv : e.1.visitOf e.2 = some v) {handler : Handler}
    (hcallee : e.1.site.callee v = some handler) : handler ∈ handlers := by
  rw [← h]
  refine List.mem_filterMap.mpr ⟨e, he, ?_⟩
  rw [hv, Option.bind_some, hcallee]

/-- A server that is only asked for its status. -/
def statusServer : Server where
  handlersTackers := (∅ : StringMap (Option Handler)).insert (str "\"/\"") (some .status)
  locationToRoot := ∅

/-- The theorem at the second of two requests. -/
theorem statusPage_run_second : ∃ p v res site records,
    oneClient.foldlM (step zeroMemory) (start zeroMemory statusServer 0 80) = some p ∧
      p.site.visit v = some (res, site) ∧
      readStatus res.body = some (str (toString records.length), records) ∧
      records.map Record.entry = p.log.validEntries ++ [accessEntry v.request.uri Response.ok] := by
  let v : Visit := ⟨⟨.get, str "/", ∅, [], str "HTTP/1.1"⟩, ⟨[], fun _ => none⟩, ⟨0, 0, 0, 0⟩,
    fun _ => .failed⟩
  have hrec : ∀ e ∈ Machine.trace (step zeroMemory) (start zeroMemory statusServer 0 80) oneClient,
      e.1.RecordsVisit e.2 := by
    intro e he v hv _ h hcallee
    obtain rfl := List.mem_singleton.mp (mem_callees [.status] (by decide +kernel) he hv hcallee)
    trivial
  have hlast : (oneClient.foldlM (step zeroMemory) (start zeroMemory statusServer 0 80)).map (fun p =>
      (p.site.callee v == some .status) && (p.site.visit v).isSome) = some true := by decide +kernel
  obtain ⟨p, hp, hv⟩ := Option.map_eq_some_iff.mp hlast
  rw [Bool.and_eq_true, beq_iff_eq] at hv
  obtain ⟨⟨res, site⟩, hvisit⟩ := Option.isSome_iff_exists.mp hv.2
  obtain ⟨records, hread, hentries⟩ :=
    statusPage_run hrec hp (forall_mem_of_all (by decide)) hv.1 hvisit
  exact ⟨p, v, res, site, records, hp, hvisit, hread, hentries⟩

end Process

end LowKeyWebServer
