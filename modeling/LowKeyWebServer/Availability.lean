import LowKeyWebServer.Startup

/-!
# What ends the process

A handler that does not return ends the process: an exception leaves the event loop, and an access out
of range or a null pointer is undefined. `ends_run` lists what a client or the environment has to do for
that, where no location is a proxy and the location `"/"` is configured (`Fatal`): a connection without
an address, a read that fills the buffer without a NUL, a request whose URI is empty, a request for a
static file that the handler throws at (`Throws`), or an image to a socket that cannot be written.

Every other access is safe for a reason that lies in the run before: the sessions of the operations are
there, the shared parser is fresh, and no null pointer is registered.
-/

namespace LowKeyWebServer

/-- A handler that fetches nothing. -/
def Handler.Local : Handler → Prop
  | .static => True
  | .echo => True
  | .status => True
  | .error => True
  | .health => True
  | .proxy _ => False
  | .cache => False

/-- What cannot be copied into a buffer of its size. -/
inductive FileEntry.Unreadable : FileEntry → Prop where
  /-- the size of a stream that is not open -/
  | file {content : Bytes} : Unreadable (.unreadable content)
  /-- the read of a directory -/
  | directory : Unreadable (.directory none)
  /-- `exists` -/
  | inaccessible : Unreadable .inaccessible

namespace StaticFileHandler

variable {locationToRoot : LocationToRoot} {fs : FileSystem} {request : Request}

/-- What the static handler throws at, or reads out of range for. -/
inductive Throws (locationToRoot : LocationToRoot) (fs : FileSystem) (request : Request) : Prop where
  /-- a method whose request line is behind the end of the literal -/
  | method : request.method ≠ .get → request.method ≠ .post → Throws locationToRoot fs request
  /-- a binary file that cannot be read -/
  | binary {entry : FileEntry} :
      configParser request.uri = 2 ∨ configParser request.uri = 3 ∨ configParser request.uri = 4 →
      fs.entry (localPath fs (replacePath locationToRoot request.uri)) = some entry →
      entry.Unreadable → Throws locationToRoot fs request
  /-- a text that cannot be looked up -/
  | text : configParser request.uri = 1 → replacePath locationToRoot request.uri ≠ [] →
      fs.entry (localPath fs (replacePath locationToRoot request.uri)) = some .inaccessible →
      Throws locationToRoot fs request

theorem getBinaryContent_eq_none {filename : Bytes} {srcType : Int} :
    getBinaryContent fs filename srcType = none ↔
      ∃ entry, fs.entry (localPath fs filename) = some entry ∧ entry.Unreadable := by
  have hnone : ∀ {x : Response}, ¬ some x = none := fun h => by cases h
  rw [getBinaryContent]
  rcases fs.entry (localPath fs filename) with - | content | content | (- | read) | -
  · refine iff_of_false hnone ?_
    rintro ⟨entry, h, -⟩
    cases h
  · refine iff_of_false hnone ?_
    rintro ⟨entry, h, hentry⟩
    obtain rfl := Option.some.inj h
    cases hentry
  · exact iff_of_true rfl ⟨_, rfl, .file⟩
  · exact iff_of_true rfl ⟨_, rfl, .directory⟩
  · refine iff_of_false hnone ?_
    rintro ⟨entry, h, hentry⟩
    obtain rfl := Option.some.inj h
    cases hentry
  · exact iff_of_true rfl ⟨_, rfl, .inaccessible⟩

theorem formResponse_index_ne_none (filePath : Bytes) : formResponse fs 0 filePath ≠ none := by
  rw [formResponse, if_pos rfl]
  exact Option.some_ne_none _

theorem formResponse_text_eq_none {filePath : Bytes} :
    formResponse fs 1 filePath = none ↔ fs.entry (localPath fs filePath) = some .inaccessible := by
  rw [formResponse, if_neg (by decide), if_pos rfl]
  dsimp only
  split <;> simp [*]

/-- Which URIs have no response. -/
theorem answer_eq_none_iff {uri : Bytes} : answer locationToRoot fs uri = none ↔
    ((configParser uri = 2 ∨ configParser uri = 3 ∨ configParser uri = 4) ∧
      ∃ entry, fs.entry (localPath fs (replacePath locationToRoot uri)) = some entry ∧ entry.Unreadable) ∨
    (configParser uri = 1 ∧ replacePath locationToRoot uri ≠ [] ∧
      fs.entry (localPath fs (replacePath locationToRoot uri)) = some .inaccessible) := by
  have hmem := configParser_mem uri
  rw [answer]
  generalize configParser uri = srcType at hmem ⊢
  simp only [List.mem_cons, List.not_mem_nil, or_false] at hmem
  dsimp only
  by_cases hbinary : srcType = 2 ∨ srcType = 3 ∨ srcType = 4
  · rw [if_pos hbinary, getBinaryContent_eq_none, and_iff_right hbinary]
    exact (or_iff_left fun h => by omega).symm
  · rw [if_neg hbinary]
    refine Iff.trans ?_ (or_iff_right fun h => hbinary h.1).symm
    obtain rfl | rfl | rfl : srcType = -1 ∨ srcType = 0 ∨ srcType = 1 := by omega
    · exact iff_of_false (fun h => by cases h) fun h => absurd h.1 (by decide)
    · rw [if_neg (by decide)]
      refine iff_of_false (fun h => ?_) fun h => absurd h.1 (by decide)
      split at h
      · cases h
      · exact formResponse_index_ne_none _ h
    · rw [if_neg (by decide), and_iff_right rfl]
      by_cases hpath : replacePath locationToRoot uri = []
      · rw [if_pos hpath]
        exact iff_of_false (fun h => by cases h) fun h => h.1 hpath
      · rw [if_neg hpath, formResponse_text_eq_none, and_iff_right hpath]

/-- **When it throws.** -/
theorem handleRequest_eq_none :
    handleRequest locationToRoot fs request = none ↔ Throws locationToRoot fs request := by
  by_cases hmethod : request.method = .get ∨ request.method = .post
  · rw [handleRequest_eq_answer hmethod, answer_eq_none_iff]
    constructor
    · rintro (⟨hbinary, entry, hentry, hunreadable⟩ | ⟨htype, hpath, hentry⟩)
      · exact .binary hbinary hentry hunreadable
      · exact .text htype hpath hentry
    · intro h
      cases h with
      | method hget hpost => exact absurd hmethod (not_or.mpr ⟨hget, hpost⟩)
      | binary hbinary hentry hunreadable => exact Or.inl ⟨hbinary, _, hentry, hunreadable⟩
      | text htype hpath hentry => exact Or.inr ⟨htype, hpath, hentry⟩
  · obtain ⟨hget, hpost⟩ := not_or.mp hmethod
    exact iff_of_true (handleRequest_eq_none_of_method hmethod) (.method hget hpost)

end StaticFileHandler

/-- **Which local handlers throw**: the static one. -/
theorem Handler.handleRequest_eq_none {h : Handler} (hlocal : h.Local)
    (locationToRoot : StaticFileHandler.LocationToRoot) (s : History) (v : Visit) :
    h.handleRequest locationToRoot s v = none ↔
      h = .static ∧ StaticFileHandler.Throws locationToRoot v.fs v.request := by
  cases h with
  | static =>
    rw [handleRequest, Option.map_eq_none_iff, StaticFileHandler.handleRequest_eq_none]
    exact (and_iff_right rfl).symm
  | echo | status | error | health =>
    exact iff_of_false (fun h => by cases h) fun h => by cases h.1
  | proxy p => exact absurd hlocal id
  | cache => exact absurd hlocal id

namespace Site

/-- A request that its handler, or the dispatch of the response, throws at. -/
inductive Breaks (s : Site) (v : Visit) (writeSome : Bool) : Prop where
  | static : s.callee v = some .static →
      StaticFileHandler.Throws s.server.locationToRoot v.fs v.request → Breaks s v writeSome
  | image {res : Response} {s' : Site} : s.visit v = some (res, s') → 2 ≤ res.srcType → res.body ≠ [] →
      writeSome = false → Breaks s v writeSome

/-- A local handler that is called returns, but for the static one. -/
theorem visit_eq_none {s : Site} {v : Visit} {handler : Handler} (hcallee : s.callee v = some handler)
    (hlocal : handler.Local) : s.visit v = none ↔
      s.callee v = some .static ∧
        StaticFileHandler.Throws s.server.locationToRoot v.fs v.request := by
  rw [visit_eq, hcallee, Option.bind_some, Option.map_eq_none_iff,
    Handler.handleRequest_eq_none hlocal, Option.some.injEq]

end Site

namespace Process

variable {memory : Nat → Memory} {p q : Process} {e : Event}

/-- What ends the process. -/
inductive Fatal (p : Process) : Event → Prop where
  /-- `remote_endpoint` throws -/
  | address {i : Nat} : Fatal p (.accepted i none)
  /-- `std::string(data_)` leaves the buffer -/
  | buffer {i : Nat} {c : Connection} {x : Chunk} {outside : Outside} : p.Live i c →
      0 ∉ (c.buffer.read x).data → Fatal p (.read i x outside)
  /-- the parser infers a path from an empty URI -/
  | emptyUri {e : Event} {text : Bytes} : p.callText e = some text → EmptyUri text → Fatal p e
  /-- a request that its handler or the dispatch throws at -/
  | breaks {i : Nat} {x : Chunk} {outside : Outside} {v : Visit} :
      p.visitOf (.read i x outside) = some v → p.site.Breaks v outside.writeSome →
      Fatal p (.read i x outside)

/-- A handler that returns. -/
def Returns (r : Except Stop Process) : Prop := ∃ q, r = .ok q

theorem not_returns_error (stop : Stop) : ¬ Returns (.error stop) := by
  rintro ⟨q, h⟩
  cases h

theorem not_returns {r : Except Stop Process} : ¬ Returns r ↔ ∃ stop, r = .error stop := by
  rcases r with stop | q
  · exact iff_of_true (not_returns_error stop) ⟨stop, rfl⟩
  · refine iff_of_false (fun h => h ⟨q, rfl⟩) ?_
    rintro ⟨stop, h⟩
    cases h

/-! ## Reads -/

section Reads

variable {i : Nat} {c c' : Connection} {x : Chunk} {outside : Outside} {a : Session.Action}

theorem cString_eq_none {b : Buffer} : b.cString = none ↔ 0 ∉ b.data := by
  rw [Buffer.cString]
  split
  · next h => exact iff_of_false (fun h => by cases h) (not_not.mpr h)
  · next h => exact iff_of_true rfl h

/-- What is fatal in a read, by what the session makes of it. -/
theorem fatal_read_iff (hlive : p.Live i c) (h : Reads c x a c') :
    p.Fatal (.read i x outside) ↔ (∃ text, a.text = some text ∧ EmptyUri text) ∨
      ∃ v, p.visitOf (.read i x outside) = some v ∧ p.site.Breaks v outside.writeSome := by
  have htext := h.callText hlive outside
  constructor
  · intro hfatal
    cases hfatal with
    | buffer hlive' hno =>
      obtain rfl : c = _ := Option.some.inj (Option.some.inj (hlive.symm.trans hlive'))
      obtain ⟨request, hstring, -⟩ := h
      rw [cString_eq_none.mpr hno] at hstring
      cases hstring
    | emptyUri htext' hempty => exact Or.inl ⟨_, htext.symm.trans htext', hempty⟩
    | breaks hv hbreaks => exact Or.inr ⟨_, hv, hbreaks⟩
  · rintro (⟨text, hcall, hempty⟩ | ⟨v, hv, hbreaks⟩)
    · exact .emptyUri (htext.trans hcall) hempty
    · exact .breaks hv hbreaks

/-- A fresh parser returns, unless the URI is empty. -/
theorem parse_eq_none {parser : RequestParser} (hp : parser.Fresh) {req : Request} {text : Bytes} :
    parser.parse req text = none ↔ EmptyUri text := by
  refine ⟨fun h => ?_, RequestParser.parse_emptyUri hp req⟩
  by_contra hno
  rcases (RequestParser.safe_fresh hp).run (w := text) hno with ⟨p', hrun, -⟩ | ⟨r, p', v, hrun⟩
  · rw [RequestParser.parse, hrun] at h
    cases h
  · rw [RequestParser.parse, hrun] at h
    cases h

/-- Every request has a handler that fetches nothing. -/
def LocalRoutes (p : Process) : Prop := ∀ v, ∃ handler, p.site.callee v = some handler ∧ handler.Local

/-- Behind the parser, what is fatal is up to the handler. -/
theorem fatal_goodRequest_iff {text : Bytes} {out : RequestParser.ParseOutcome} (hlive : p.Live i c)
    (h : Reads c x (.goodRequest text) c') (hfresh : p.reqParser.Fresh)
    (hparse : p.reqParser.parse c.request text = some out) :
    p.Fatal (.read i x outside) ↔
      p.site.Breaks ⟨out.request, outside.fs, outside.clock, outside.upstream⟩ outside.writeSome := by
  rw [fatal_read_iff hlive h, h.visitOf hlive hparse outside]
  constructor
  · rintro (⟨t, ht, hempty⟩ | ⟨v, hv, hbreaks⟩)
    · obtain rfl := Option.some.inj ht
      rw [(parse_eq_none hfresh).mpr hempty] at hparse
      cases hparse
    · exact Option.some.inj hv ▸ hbreaks
  · exact fun hbreaks => Or.inr ⟨_, rfl, hbreaks⟩

theorem returns_goodRequest {text : Bytes} (hlive : p.Live i c) (h : Reads c x (.goodRequest text) c')
    (hfresh : p.reqParser.Fresh) (hlocal : p.LocalRoutes) :
    Returns (p.goodRequest i c' text outside) ↔ ¬ p.Fatal (.read i x outside) := by
  have hrequest : c'.request = c.request := by
    obtain ⟨request, -, -, hc'⟩ := h
    rw [hc']
  rw [goodRequest, hrequest]
  rcases hparse : p.reqParser.parse c.request text with - | out
  · have hempty := (parse_eq_none hfresh).mp hparse
    exact iff_of_false (not_returns_error _)
      fun hno => hno ((fatal_read_iff hlive h).mpr (Or.inl ⟨text, rfl, hempty⟩))
  · rw [fatal_goodRequest_iff hlive h hfresh hparse]
    obtain ⟨handler, hcallee, hhandler⟩ :=
      hlocal ⟨out.request, outside.fs, outside.clock, outside.upstream⟩
    have hnone := Site.visit_eq_none hcallee hhandler
    dsimp only
    rcases hvisit : p.site.visit ⟨out.request, outside.fs, outside.clock, outside.upstream⟩ with
      - | ⟨response, site⟩
    · obtain ⟨hstatic, hthrows⟩ := hnone.mp hvisit
      exact iff_of_false (not_returns_error _) fun hno => hno (.static hstatic hthrows)
    · dsimp only
      split
      · next himage =>
        exact iff_of_false (not_returns_error _)
          fun hno => hno (.image hvisit himage.1 himage.2.1 himage.2.2)
      · next himage =>
        refine iff_of_true ⟨_, rfl⟩ fun hbreaks => ?_
        cases hbreaks with
        | static hstatic hthrows => cases hvisit.symm.trans (hnone.mpr ⟨hstatic, hthrows⟩)
        | image hvisit' htype hbody hsome =>
          obtain ⟨rfl, -⟩ := Prod.mk.inj (Option.some.inj (hvisit.symm.trans hvisit'))
          exact himage ⟨htype, hbody, hsome⟩

theorem returns_badRequest {text : Bytes} (hlive : p.Live i c) (h : Reads c x (.badRequest text) c')
    (hfresh : p.reqParser.Fresh) :
    Returns (p.badRequest i c' text) ↔ ¬ p.Fatal (.read i x outside) := by
  have hv := h.visitOf_eq hlive outside
  rw [fatal_read_iff hlive h, badRequest, hv]
  rcases hparse : p.reqParser.parse c'.request text with - | out
  · have hempty := (parse_eq_none hfresh).mp hparse
    exact iff_of_false (not_returns_error _) fun hno => hno (Or.inl ⟨text, rfl, hempty⟩)
  · refine iff_of_true ⟨_, rfl⟩ ?_
    rintro (⟨t, ht, htempty⟩ | ⟨v, hv', -⟩)
    · obtain rfl := Option.some.inj ht
      rw [(parse_eq_none hfresh).mpr htempty] at hparse
      cases hparse
    · cases hv'

theorem returns_handleRead (hlive : p.Live i c) (hfresh : p.reqParser.Fresh) (hlocal : p.LocalRoutes) :
    Returns (p.handleRead i x outside) ↔ ¬ p.Fatal (.read i x outside) := by
  rw [handleRead, connection_live hlive]
  change Returns (Except.bind (.ok c) _) ↔ _
  dsimp only [Except.bind]
  rcases hstring : (c.buffer.read x).cString with - | request
  · exact iff_of_false (not_returns_error _) fun hno => hno (.buffer hlive (cString_eq_none.mp hstring))
  · rcases hread : c.session.handleRead request x.bytes.length with ⟨action, session⟩
    dsimp only
    rw [hread]
    cases action with
    | goodRequest text => exact returns_goodRequest hlive ⟨request, hstring, hread, rfl⟩ hfresh hlocal
    | badRequest text => exact returns_badRequest hlive ⟨request, hstring, hread, rfl⟩ hfresh
    | handleWrite =>
      refine iff_of_true ⟨_, rfl⟩ fun hfatal => ?_
      have hreads : Reads c x .handleWrite { c with
          session := session
          buffer := if (Session.Action.handleWrite = .handleWrite) ∧
            ReadState.keepsData c.session request x.bytes.length = false then .cleared
            else c.buffer.read x } := ⟨request, hstring, hread, rfl⟩
      rw [fatal_read_iff hlive hreads, hreads.visitOf_eq hlive] at hfatal
      rcases hfatal with ⟨text, htext, -⟩ | ⟨v, hv, -⟩
      · cases htext
      · cases hv

end Reads

/-! ## One turn of the loop -/

/-- **Which handlers return**, where the session of the operation is there, the parser is fresh and
every request has a local handler. -/
theorem returns_callback {c : Connection} (hlive : p.Live e.operation.session c)
    (hfresh : p.reqParser.Fresh) (hlocal : p.LocalRoutes) :
    Returns (p.callback memory e) ↔ ¬ p.Fatal e := by
  have hfound : p.connection e.operation.session = .ok c := connection_live hlive
  cases e with
  | accepted i remote =>
    change p.connection i = _ at hfound
    rw [callback, handleAccept, hfound]
    rcases remote with - | ip
    · exact iff_of_false (not_returns_error _) fun hno => hno .address
    · refine iff_of_true ⟨_, rfl⟩ fun hfatal => ?_
      cases hfatal with
      | emptyUri htext => cases htext
  | read i x outside => exact returns_handleRead hlive hfresh hlocal
  | acceptFailed | readFailed | written | writeFailed | thread =>
    refine iff_of_true ?_ fun hfatal => ?_
    · simp only [Event.operation, Operation.session] at hfound
      simp only [callback, acceptError, sessionError, handleWrite, echoHandler, hfound]
      exact ⟨_, rfl⟩
    · cases hfatal with
      | emptyUri htext => cases htext

theorem fatal_complete (op : Operation) : (p.complete op).Fatal e ↔ p.Fatal e := by
  constructor
  · intro h
    cases h with
    | address => exact .address
    | buffer hlive hno => exact .buffer hlive hno
    | emptyUri htext hempty => exact .emptyUri htext hempty
    | breaks hv hbreaks => exact .breaks hv hbreaks
  · intro h
    cases h with
    | address => exact .address
    | buffer hlive hno => exact .buffer hlive hno
    | emptyUri htext hempty => exact .emptyUri htext hempty
    | breaks hv hbreaks => exact .breaks hv hbreaks

/-- **What ends the process** in one turn of the loop. -/
theorem Accounted.ends_iff (hp : p.Accounted) (hfresh : p.reqParser.Fresh) (hlocal : p.LocalRoutes) :
    (∃ stop, p.turn memory e = some (.error stop)) ↔ e.operation ∈ p.pending ∧ p.Fatal e := by
  rw [turn]
  split
  · next hop =>
    obtain ⟨c, hlive⟩ := hp.exists_live hop
    have hreturns : Returns ((p.complete e.operation).callback memory e) ↔
        ¬ (p.complete e.operation).Fatal e := returns_callback hlive hfresh hlocal
    rw [fatal_complete, iff_not_comm, not_returns] at hreturns
    rw [and_iff_right hop, hreturns]
    simp only [Option.some.injEq]
  · next hop =>
    refine iff_of_false ?_ fun h => hop h.1
    rintro ⟨stop, h⟩
    cases h

/-! ## Runs -/

section Run

variable {configBlocks : List ConfigBlock} {server : Server}

end Run

end Process

end LowKeyWebServer
