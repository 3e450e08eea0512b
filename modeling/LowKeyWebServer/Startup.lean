import LowKeyWebServer.ClientIsolation
import LowKeyWebServer.LocationBlocks
import LowKeyWebServer.PortNumber
import LowKeyWebServer.StatusPage

/-!
# From a config to its routes

`main.cc`: `main` takes the port from a scan of the config file, the blocks from a parse and another
scan, and the handlers from the blocks, and enters the event loop. `config_run` says what becomes of a
config tree: where it is printed as a file and has the form of `Served`, the process listens on the
port of its first statement `port`, and in every run hands each request to the handler of the last
location statement of the longest prefix that has one (`Routed`).

The two scans do not know the tree. That they find what is in it rests on the form: the words `port`
and `location` are keywords only, and no block lies in another one.
-/

namespace LowKeyWebServer

open NginxConfigParser Port PrefixSearch

/-! ## `main` -/

namespace Port

/-- The word `port` is nothing but the first word of a statement. -/
def PortKeyword : NginxConfig → Prop := AllStatements fun s => port ∉ s.tokens.tail

/-- The word `port` only begins statements, in a list of tokens whose first one does so or not. -/
def PortBegins (starts : Bool) : List Token → Prop
  | [] => True
  | t :: ts => (t = .word port → starts = true) ∧ PortBegins (wordText t).isNone ts

theorem portBegins_words {words : List Bytes} (hwords : port ∉ words) {t : Token}
    (ht : wordText t = none) {ts : List Token} (hts : PortBegins true ts) (starts : Bool) :
    PortBegins starts (words.map Token.word ++ t :: ts) := by
  induction words generalizing starts with
  | nil =>
    refine ⟨fun heq => ?_, ht ▸ hts⟩
    rw [heq] at ht
    cases ht
  | cons w words ih =>
    rw [List.mem_cons, not_or] at hwords
    exact ⟨fun heq => absurd (Token.word.inj heq).symm hwords.1, ih hwords.2 _⟩

theorem portBegins_statement {words : List Bytes} (hwords : port ∉ words.tail) {t : Token}
    (ht : wordText t = none) {ts : List Token} (hts : PortBegins true ts) :
    PortBegins true (words.map Token.word ++ t :: ts) := by
  rcases words with - | ⟨w, words⟩
  · exact portBegins_words List.not_mem_nil ht hts true
  · exact ⟨fun _ => rfl, portBegins_words hwords ht hts _⟩

/-- The tokens of a tree, in front of others. -/
theorem PortKeyword.begins {cfg : NginxConfig} (h : PortKeyword cfg) {ts : List Token}
    (hts : PortBegins true ts) : PortBegins true (configTokens cfg ++ ts) := by
  induction h generalizing ts with
  | nil => exact hts
  | simple hs _ ih =>
    rw [configTokens, statementTokens, List.append_assoc, List.append_assoc, List.singleton_append]
    exact portBegins_statement hs rfl (ih hts)
  | block hs _ _ ihc ih =>
    have hclosing : PortBegins true (Token.closing :: (configTokens _ ++ ts)) :=
      ⟨fun heq => Token.noConfusion heq, ih hts⟩
    rw [configTokens, statementTokens, List.append_assoc, List.append_assoc, List.cons_append,
      List.append_assoc, List.singleton_append]
    exact portBegins_statement hs rfl (ihc hclosing)

end Port

namespace Server

/-- The handler that a block registers. -/
def blockHandler (b : ConfigBlock) : Option Handler :=
  (createHandler ⟨∅, ∅⟩ b.blockPrefix b).map Prod.fst

/-- The last block for a key. -/
def lastBlock (configBlocks : List ConfigBlock) (key : Bytes) : Option ConfigBlock :=
  configBlocks.reverse.find? fun b => b.blockPrefix == key

variable {s server : Server} {configBlocks : List ConfigBlock} {uri key : Bytes}

/-- The handler does not depend on the blocks before it. -/
theorem createHandler_fst (s : Server) (b : ConfigBlock) :
    (s.createHandler b.blockPrefix b).map Prod.fst = blockHandler b := by
  rw [blockHandler, createHandler, createHandler]
  split
  · -- whether a root is found does not either
    rw [StaticFileHandler.init, StaticFileHandler.init]
    rcases StaticFileHandler.rootOf (configToStr 0 b.content) with - | root
    · rfl
    · rcases StaticFileHandler.unquote b.blockPrefix with - | temp <;> rfl
  · repeat' split
    all_goals first
      | rfl
      | simp only [Option.map_map, Function.comp_def]

/-- **The last block for a key** is the one that stays. -/
theorem foldlM_addBlock_get (h : configBlocks.foldlM addBlock s = some server) (key : Bytes) :
    server.handlersTackers[key]? =
      ((lastBlock configBlocks key).map blockHandler).or s.handlersTackers[key]? := by
  induction configBlocks generalizing s with
  | nil =>
    obtain rfl := Option.some.inj h
    rfl
  | cons b configBlocks ih =>
    rw [List.foldlM_cons] at h
    obtain ⟨s', hadd, h⟩ := Option.bind_eq_some_iff.mp h
    obtain ⟨⟨handler, roots⟩, hcreate, rfl⟩ := Option.map_eq_some_iff.mp hadd
    have hhandler : blockHandler b = some handler := by
      rw [← createHandler_fst s, hcreate]
      rfl
    rw [ih h, lastBlock, lastBlock, List.reverse_cons, List.find?_append, List.find?_singleton,
      Std.TreeMap.getElem?_insert, Option.map_or, Option.or_assoc]
    congr 1
    by_cases hkey : b.blockPrefix = key
    · rw [if_pos (Std.LawfulEqCmp.compare_eq_iff_eq.mpr hkey), if_pos (beq_iff_eq.mpr hkey),
        Option.map_some, hhandler]
      rfl
    · rw [if_neg fun hcmp => hkey (Std.LawfulEqCmp.compare_eq_iff_eq.mp hcmp),
        if_neg fun hbeq => hkey (beq_iff_eq.mp hbeq)]
      rfl

theorem start_get (h : start configBlocks = some server) (key : Bytes) :
    server.handlersTackers[key]? = (lastBlock configBlocks key).map blockHandler := by
  rw [foldlM_addBlock_get h, Std.TreeMap.getElem?_emptyc, Option.or_none]

theorem start_contains (h : start configBlocks = some server) (key : Bytes) :
    server.handlersTackers.contains key = (lastBlock configBlocks key).isSome := by
  rw [Std.TreeMap.contains_eq_isSome_getElem?, start_get h, Option.isSome_map]

/-! ## The route of a config -/

/-- The block that the config has for a URI: that of the key which is looked up first, or that of the
longest prefix before a slash. -/
inductive Located (configBlocks : List ConfigBlock) (uri : Bytes) : ConfigBlock → Prop
  | first {b : ConfigBlock} : lastBlock configBlocks (firstKey uri) = some b → Located configBlocks uri b
  | before {b : ConfigBlock} {u t : Bytes} : lastBlock configBlocks (firstKey uri) = none →
      uri = u ++ ('/' : Byte) :: t → lastBlock configBlocks (quote u) = some b →
      (∀ v t, uri = v ++ ('/' : Byte) :: t → u.length < v.length →
        lastBlock configBlocks (quote v) = none) → Located configBlocks uri b

/-- The handler that the config has for a URI: without a block, that of the location `"/"`, or an
`ErrorHandler`. -/
inductive Routed (configBlocks : List ConfigBlock) (uri : Bytes) : Handler → Prop
  | located {b : ConfigBlock} {h : Handler} : Located configBlocks uri b → blockHandler b = some h →
      Routed configBlocks uri h
  | root {b : ConfigBlock} {h : Handler} : (∀ b, ¬ Located configBlocks uri b) →
      lastBlock configBlocks rootKey = some b → blockHandler b = some h → Routed configBlocks uri h
  | error : (∀ b, ¬ Located configBlocks uri b) → lastBlock configBlocks rootKey = none →
      Routed configBlocks uri .error

theorem Located.unique {b b' : ConfigBlock} (h : Located configBlocks uri b)
    (h' : Located configBlocks uri b') : b = b' := by
  cases h with
  | first hb =>
    cases h' with
    | first hb' => exact Option.some.inj (hb.symm.trans hb')
    | before hnone => cases hb.symm.trans hnone
  | @before u t hnone huri hb hlongest =>
    cases h' with
    | first hb' => cases hnone.symm.trans hb'
    | @before u' t' _ huri' hb' hlongest' =>
      have hle : u'.length ≤ u.length := by
        by_contra hlt
        cases (hlongest u' t' huri' (Nat.not_le.mp hlt)).symm.trans hb'
      have hge : u.length ≤ u'.length := by
        by_contra hlt
        cases (hlongest' u t huri (Nat.not_le.mp hlt)).symm.trans hb
      obtain ⟨rfl, -⟩ := List.append_inj (huri.symm.trans huri') (Nat.le_antisymm hge hle)
      exact Option.some.inj (hb.symm.trans hb')

/-- A config has one handler for a URI. -/
theorem Routed.unique {h h' : Handler} (hr : Routed configBlocks uri h) (hr' : Routed configBlocks uri h') :
    h = h' := by
  cases hr with
  | located hb hh =>
    cases hr' with
    | located hb' hh' =>
      obtain rfl := hb.unique hb'
      exact Option.some.inj (hh.symm.trans hh')
    | root hno | error hno => exact absurd hb (hno _)
  | root hno hb hh =>
    cases hr' with
    | located hb' => exact absurd hb' (hno _)
    | root _ hb' hh' =>
      obtain rfl := Option.some.inj (hb.symm.trans hb')
      exact Option.some.inj (hh.symm.trans hh')
    | error _ hnone => cases hb.symm.trans hnone
  | error hno hnone =>
    cases hr' with
    | located hb' => exact absurd hb' (hno _)
    | root _ hb' => cases hnone.symm.trans hb'
    | error => rfl

/-- A block that is in force has a handler. -/
theorem exists_blockHandler (h : start configBlocks = some server) {b : ConfigBlock}
    (hb : lastBlock configBlocks key = some b) : ∃ handler, blockHandler b = some handler := by
  have hget := start_get h key
  rw [hb, Option.map_some] at hget
  rcases hhandler : blockHandler b with - | handler
  · rw [hhandler] at hget
    exact absurd hget ((start_keys h).1 key)
  · exact ⟨handler, rfl⟩

theorem start_getD (h : start configBlocks = some server) (key : Bytes) :
    server.handlersTackers.getD key none = (lastBlock configBlocks key).bind blockHandler := by
  rw [Std.TreeMap.getD_eq_getD_getElem?, start_get h]
  rcases lastBlock configBlocks key with - | b <;> rfl

/-- The routing loop finds the block that the config has. -/
theorem located_foundKey (h : start configBlocks = some server)
    (hfound : foundKey server.handlersTackers uri (firstKey uri) = some key) :
    ∃ b, lastBlock configBlocks key = some b ∧ Located configBlocks uri b := by
  rw [foundKey, start_contains h] at hfound
  split at hfound
  · next hfirst =>
    obtain rfl := Option.some.inj hfound
    obtain ⟨b, hb⟩ := Option.isSome_iff_exists.mp hfirst
    exact ⟨b, hb, .first hb⟩
  · next hfirst =>
    obtain ⟨u, hu, rfl⟩ := Option.map_eq_some_iff.mp hfound
    obtain ⟨hmem, hreg, hlongest⟩ := find?_before_iff.mp hu
    obtain ⟨t, ht⟩ := mem_before.mp hmem
    rw [registered, start_contains h] at hreg
    obtain ⟨b, hb⟩ := Option.isSome_iff_exists.mp hreg
    refine ⟨b, hb, .before (Option.not_isSome_iff_eq_none.mp hfirst) ht hb fun v t' hv hlt => ?_⟩
    by_contra hne
    have hle : v.length ≤ u.length := by
      refine hlongest v (mem_before.mpr ⟨t', hv⟩) ?_
      rw [registered, start_contains h]
      exact Option.isSome_iff_ne_none.mpr hne
    omega

/-- If it finds none, the config has none. -/
theorem not_located (h : start configBlocks = some server)
    (hfound : foundKey server.handlersTackers uri (firstKey uri) = none) (b : ConfigBlock) :
    ¬ Located configBlocks uri b := by
  rw [foundKey, start_contains h] at hfound
  split at hfound
  · cases hfound
  · next hfirst =>
    rw [Option.map_eq_none_iff, List.find?_eq_none] at hfound
    intro hb
    cases hb with
    | first hb => exact hfirst (Option.isSome_of_eq_some hb)
    | before _ huri hb _ =>
      refine hfound _ (mem_before.mpr ⟨_, huri⟩) ?_
      rw [registered, start_contains h]
      exact Option.isSome_of_eq_some hb

/-- **The route of a request** on a new server is that of its config. -/
theorem routed_start (h : start configBlocks = some server) (uri : Bytes) :
    ∃ handler, Site.handlerOf (server.goodRequest uri).1 = some handler ∧
      Routed configBlocks uri handler := by
  rw [goodRequest_fst, taskKey, start_getD h]
  rcases hfound : foundKey server.handlersTackers uri (firstKey uri) with - | key
  · have hno := not_located h hfound
    rw [Option.getD_none]
    rcases hroot : lastBlock configBlocks rootKey with - | b
    · exact ⟨.error, rfl, .error hno hroot⟩
    · obtain ⟨handler, hhandler⟩ := exists_blockHandler h hroot
      refine ⟨handler, ?_, .root hno hroot hhandler⟩
      rw [Option.bind_some, hhandler]
      rfl
  · obtain ⟨b, hb, hlocated⟩ := located_foundKey h hfound
    obtain ⟨handler, hhandler⟩ := exists_blockHandler h hb
    refine ⟨handler, ?_, .located hlocated hhandler⟩
    rw [Option.getD_some, hb, Option.bind_some, hhandler]
    rfl

/-- A handler that is called in a later state is the one that the config has. -/
theorem Drift.routed (h : start configBlocks = some server) (hdrift : Drift server s) {handler : Handler}
    (hcallee : Site.handlerOf (s.goodRequest uri).1 = some handler) : Routed configBlocks uri handler := by
  have hnull : (s.goodRequest uri).1 ≠ .null := by
    intro hnull
    rw [hnull] at hcallee
    cases hcallee
  obtain ⟨handler', hcallee', hrouted⟩ := routed_start h uri
  rw [(goodRequest_drift hdrift hnull).1] at hcallee'
  obtain rfl := Option.some.inj (hcallee.symm.trans hcallee')
  exact hrouted

/-- Only without a location `"/"` none is called. -/
theorem Drift.no_root (h : start configBlocks = some server) (hdrift : Drift server s)
    (hcallee : Site.handlerOf (s.goodRequest uri).1 = none) : ∀ b ∈ configBlocks, b.blockPrefix ≠ rootKey := by
  have hnull : (s.goodRequest uri).1 = .null := by
    rcases hgood : (s.goodRequest uri).1 with handler | - | -
    · rw [hgood] at hcallee
      cases hcallee
    · rw [hgood] at hcallee
      cases hcallee
    · rfl
  obtain ⟨hno, hkeys⟩ := start_keys h
  exact fun b hb hroot => null_drift hno hdrift hnull ((hkeys rootKey).mpr ⟨b, hb, hroot⟩)

end Server

/-! ## Runs -/

namespace Process

variable {memory : Nat → Memory} {p q : Process} {e : Event} {server : Server}

/-- No event changes a route. -/
theorem drift_event (hp : Server.Drift server p.site.server) (h : p.step memory e = some q) :
    Server.Drift server q.site.server := by
  obtain ⟨-, hhandles⟩ := step_cases h
  cases hhandles with
  | accepted => exact hp
  | acceptFailed => exact hp
  | more => exact hp
  | good _ _ _ hvisit => exact hp.trans (Site.drift_visit hvisit)
  | bad => exact hp
  | readFailed => exact hp
  | written => exact hp
  | writeFailed => exact hp
  | thread => exact hp

theorem drift_run {remaining : UInt64} {portNum : Int} {events : List Event} :
    ∀ e ∈ Machine.trace (step memory) (start memory server remaining portNum) events,
      Server.Drift server e.1.site.server :=
  Machine.forall_trace (fun _ => True) (fun _ _ _ hp _ h => drift_event hp h) (Server.Drift.refl server)
    fun _ _ => trivial

/-- A request that goes to the handlers comes from a read which completes it. -/
theorem Reads.visitOf_eq {i : Nat} {c c' : Connection} {x : Chunk} {a : Session.Action}
    (hlive : p.Live i c) (h : Reads c x a c') (outside : Outside) :
    p.visitOf (.read i x outside) = a.goodText.bind fun text =>
      (p.reqParser.parse c.request text).map fun out =>
        ⟨out.request, outside.fs, outside.clock, outside.upstream⟩ := by
  obtain ⟨request, hstring, hread, -⟩ := h
  rw [Process.visitOf, connection_live hlive]
  simp [Except.toOption, hstring, hread, Option.map_eq_bind]

/-- What becomes of a request in a process with these blocks: an answer is that of the handler that they
have for its URI, with their roots, and a null pointer is only met without a location `"/"`. -/
structure ByConfig (memory : Nat → Memory) (server : Server) (configBlocks : List ConfigBlock)
    (p : Process) (e : Event) (v : Visit) : Prop where
  answered : ∀ q, p.step memory e = some q → ∃ handler response,
    Server.Routed configBlocks v.request.uri handler ∧
      handler.handleRequest server.locationToRoot p.site.history v = some (response, q.site.history) ∧
      q.sent = p.sent ++ [(e.operation.session, Dispatcher.dispatch response)]
  null : p.site.callee v = none → ∀ b ∈ configBlocks, b.blockPrefix ≠ Server.rootKey

theorem byConfig {configBlocks : List ConfigBlock} (hstart : Server.start configBlocks = some server)
    (hdrift : Server.Drift server p.site.server) {v : Visit} (hv : p.visitOf e = some v) :
    ByConfig memory server configBlocks p e v := by
  refine ⟨fun q h => ?_, fun hcallee => hdrift.no_root hstart hcallee⟩
  obtain ⟨-, hhandles⟩ := step_cases h
  cases hhandles with
  | accepted | acceptFailed | readFailed | written | writeFailed | thread => cases hv
  | @more i c c' x outside hlive hreads =>
    have hno := Reads.visitOf_eq (p := p) hlive hreads outside
    cases hv.symm.trans hno
  | @bad i c c' x outside text out hlive hreads =>
    have hno := Reads.visitOf_eq (p := p) hlive hreads outside
    cases hv.symm.trans hno
  | @good i c c' x outside text out response site hlive hreads hparse hvisit =>
    obtain rfl := Option.some.inj (hv.symm.trans (Reads.visitOf (p := p) hlive hreads hparse outside))
    obtain ⟨handler, hcallee, hreq, -⟩ := Site.visit_eq_some hvisit
    refine ⟨handler, response, hdrift.routed hstart hcallee, ?_, rfl⟩
    rw [← hdrift.roots]
    exact hreq

end Process

end LowKeyWebServer
