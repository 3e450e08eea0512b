import LowKeyWebServer.LinkRewriting
import LowKeyWebServer.ProxySafety
import LowKeyWebServer.Startup
import LowKeyWebServer.StaticRoot

/-!
# What a location is for

A static location stands for a directory, and a proxy location for an upstream address: the part of a
URI that follows the location's prefix is looked for there. `static_run` and `proxy_run` say so of every
answer in every run of the process, whatever other locations there are and whatever has been asked
before. The two strings come from the same block (`StaticLocation`, `ProxyLocation`), but by ways of
their own: the prefix by the map of handlers, the root by a map of roots that is searched again for
each request, the address by the handler.
-/

namespace LowKeyWebServer

open StaticFileHandler ProxyHandler

namespace Server

variable {s server : Server} {configBlocks : List ConfigBlock} {b : ConfigBlock}
  {uri location path address : Bytes}

/-- The last block for a key is one for the key, and no block for it follows. -/
theorem lastBlock_eq_some {key : Bytes} : lastBlock configBlocks key = some b ↔
    b.blockPrefix = key ∧ ∃ before after, configBlocks = before ++ b :: after ∧
      ∀ b' ∈ after, b'.blockPrefix ≠ key := by
  rw [lastBlock, List.find?_eq_some_iff_append, beq_iff_eq]
  refine and_congr_right fun _ => ?_
  constructor
  · rintro ⟨as, bs, hsplit, hno⟩
    refine ⟨bs.reverse, as.reverse, ?_, fun b' hb' => ?_⟩
    · rw [← List.reverse_reverse configBlocks, hsplit]
      simp
    · simpa using hno b' (List.mem_reverse.mp hb')
  · rintro ⟨before, after, rfl, hno⟩
    refine ⟨after.reverse, before.reverse, by simp, fun b' hb' => ?_⟩
    simpa using hno b' (List.mem_reverse.mp hb')

/-- The block of a URI is the last one for its prefix. -/
theorem Located.last (h : Located configBlocks uri b) : lastBlock configBlocks b.blockPrefix = some b := by
  cases h with
  | first hb => rwa [(lastBlock_eq_some.mp hb).1]
  | before _ _ hb _ => rwa [(lastBlock_eq_some.mp hb).1]

/-- The request of a URI with a block is handed to the handler of the block. -/
theorem Routed.of_located {handler : Handler} (h : Routed configBlocks uri handler)
    (hb : Located configBlocks uri b) : blockHandler b = some handler := by
  cases h with
  | located hb' hhandler => rwa [hb.unique hb']
  | root hno _ _ => exact absurd hb (hno b)
  | error hno _ => exact absurd hb (hno b)

/-! ## Static locations -/

/-- A block that maps the location to a directory: its last statement is the root, and no slash
comes before it. The directory is the root from its first slash on. -/
structure StaticLocation (b : ConfigBlock) (location path : Bytes) : Prop where
  key : b.blockPrefix = quote location
  handlerType : b.handlerType = str "StaticHandler"
  content : ∃ pre root, b.content = rootBlock pre [] root ∧ ('/' : Byte) ∉ configToStr 0 pre ∧
    ('/' : Byte) ∈ root ∧ path = fromSlash root

theorem StaticLocation.rootOf_eq (h : StaticLocation b location path) :
    rootOf (configToStr 0 b.content) = some path := by
  obtain ⟨pre, root, hcontent, hpre, hslash, rfl⟩ := h.content
  rw [hcontent]
  exact (rootOf_rootBlock_iff hslash).mpr ⟨rfl, hpre⟩

theorem StaticLocation.ne_nil (h : StaticLocation b location path) : path ≠ [] := by
  obtain ⟨pre, root, -, -, hslash, rfl⟩ := h.content
  intro hnil
  exact absurd (List.dropWhile_eq_nil_iff.mp hnil _ hslash) (by decide)

theorem StaticLocation.handler (h : StaticLocation b location path) : blockHandler b = some .static := by
  rw [blockHandler, createHandler, if_pos h.handlerType, StaticFileHandler.init, h.rootOf_eq, h.key,
    unquote_quote]
  rfl

/-- The block stores its root. -/
theorem StaticLocation.addBlock (h : StaticLocation b location path) (hadd : s.addBlock b = some server) :
    root server.locationToRoot location = path := by
  obtain ⟨⟨handler, roots⟩, hcreate, rfl⟩ := Option.map_eq_some_iff.mp hadd
  rw [createHandler, if_pos h.handlerType, StaticFileHandler.init, h.rootOf_eq, h.key, unquote_quote] at hcreate
  obtain ⟨-, rfl⟩ := Prod.mk.inj (Option.some.inj hcreate)
  rw [root, Std.TreeMap.getD_insert_self]

/-- Blocks for other prefixes leave it as it is. -/
theorem root_foldlM (hquoted : ∀ b ∈ configBlocks, ∃ p, b.blockPrefix = quote p)
    (hne : ∀ b ∈ configBlocks, b.blockPrefix ≠ quote location)
    (h : configBlocks.foldlM Server.addBlock s = some server) :
    root server.locationToRoot location = root s.locationToRoot location := by
  induction configBlocks generalizing s with
  | nil =>
    obtain rfl := Option.some.inj h
    rfl
  | cons b configBlocks ih =>
    rw [List.forall_mem_cons] at hquoted hne
    rw [List.foldlM_cons] at h
    obtain ⟨s', hadd, h⟩ := Option.bind_eq_some_iff.mp h
    rw [ih hquoted.2 hne.2 h]
    obtain ⟨⟨handler, roots⟩, hcreate, rfl⟩ := Option.map_eq_some_iff.mp hadd
    obtain ⟨p, hp⟩ := hquoted.1
    rcases createHandler_roots hcreate with rfl | ⟨temp, r, htemp, rfl⟩
    · rfl
    · rw [hp, unquote_quote] at htemp
      obtain rfl := Option.some.inj htemp
      rw [root, root, Std.TreeMap.getD_insert, if_neg]
      rw [Std.LawfulEqCmp.compare_eq_iff_eq]
      rintro rfl
      exact hne.1 hp

theorem StaticLocation.root_eq (h : StaticLocation b location path)
    (hquoted : ∀ b ∈ configBlocks, ∃ p, b.blockPrefix = quote p)
    (hstart : start configBlocks = some server)
    (hlast : lastBlock configBlocks (quote location) = some b) :
    root server.locationToRoot location = path := by
  obtain ⟨-, before, after, rfl, hno⟩ := lastBlock_eq_some.mp hlast
  rw [start, List.foldlM_append] at hstart
  obtain ⟨s₁, -, hstart⟩ := Option.bind_eq_some_iff.mp hstart
  rw [List.foldlM_cons] at hstart
  obtain ⟨s₂, hadd, hstart⟩ := Option.bind_eq_some_iff.mp hstart
  have hafter : ∀ b ∈ after, ∃ p, b.blockPrefix = quote p := fun b hb =>
    hquoted b (List.mem_append_right _ (List.mem_cons_of_mem _ hb))
  rw [root_foldlM hafter hno hstart, h.addBlock hadd]

/-- A location that is followed by a slash in the URI is the longest one before a slash. -/
theorem Located.longest {t : Bytes} (h : Located configBlocks uri b) (hkey : b.blockPrefix = quote location)
    (huri : uri = location ++ ('/' : Byte) :: t) {v t' : Bytes} (hv : uri = v ++ ('/' : Byte) :: t')
    (hlt : location.length < v.length) : lastBlock configBlocks (quote v) = none := by
  cases h with
  | first hb =>
    have hfirst := (lastBlock_eq_some.mp hb).1
    rw [hkey, firstKey] at hfirst
    split at hfirst
    · -- a link does not start with a slash
      next hhttp =>
      have hlocation : location = str "/http" := quote_inj hfirst
      rw [huri, hlocation] at hhttp
      cases hhttp
    · -- the whole URI is longer
      have hlen := congrArg List.length (quote_inj hfirst)
      rw [huri, List.length_append, List.length_cons] at hlen
      omega
  | before _ hu hb hlongest =>
    obtain rfl := quote_inj (hkey.symm.trans (lastBlock_eq_some.mp hb).1)
    exact hlongest v t' hv hlt

/-- **The path of a static request** is the directory of its location, with the rest of the URI. -/
theorem StaticLocation.replacePath_eq {t : Bytes} (h : StaticLocation b location path)
    (hquoted : ∀ b ∈ configBlocks, ∃ p, b.blockPrefix = quote p)
    (hstart : start configBlocks = some server) (hlocated : Located configBlocks uri b)
    (huri : uri = location ++ ('/' : Byte) :: t) :
    replacePath server.locationToRoot uri = path ++ ('/' : Byte) :: t := by
  have hlast := hlocated.last
  rw [h.key] at hlast
  have hroot := h.root_eq hquoted hstart hlast
  have hmatched : Matched server.locationToRoot uri location t := by
    refine ⟨.slash huri, ?_, fun u rest hsplits hlt => ?_⟩
    · rw [hroot]
      exact h.ne_nil
    · cases hsplits with
      | slash hu =>
        by_contra hne
        have hmem := Registered.start hquoted hstart u hne
        rw [← Std.TreeMap.contains_iff_mem, start_contains hstart,
          hlocated.longest h.key huri hu hlt] at hmem
        cases hmem
      | whole hno => exact absurd (huri ▸ List.mem_append_right _ List.mem_cons_self) hno
  rw [StaticFileHandler.replacePath_eq hmatched, hroot]

/-! ## Proxy locations -/

/-- A block that maps the location to an upstream address. -/
structure ProxyLocation (b : ConfigBlock) (location address : Bytes) : Prop where
  key : b.blockPrefix = quote location
  handlerType : b.handlerType = str "ProxyHandler"
  pass : ∃ value, proxyPass b.content = some value ∧ trimQuotes value = address
  noQuote : ('"' : Byte) ∉ location
  nonempty : address ≠ []

theorem ProxyLocation.handler (h : ProxyLocation b location address) :
    blockHandler b = some (.proxy ⟨location, address⟩) := by
  obtain ⟨value, hvalue, hpass⟩ := h.pass
  have htype : b.handlerType = str "ProxyHandler" := h.handlerType
  rw [blockHandler, createHandler, htype]
  simp only [ProxyHandler.init, hvalue, h.key, setLocation_quote h.noQuote, hpass, Option.map_some]
  rfl

end Server

/-! ## What is read -/

namespace ProxyHandler

variable {h : ProxyHandler} {uri dest : Bytes}

/-- What is below an address: there is a slash where they meet. -/
def below (address t : Bytes) : Bytes :=
  if t.head? ≠ some ('/' : Byte) ∧ address.getLast? ≠ some ('/' : Byte) then address ++ (str "/" ++ t)
  else address ++ t

/-- Only the destination is fetched. -/
theorem fetch_destination (hdest : h.destination uri = some dest) (upstream : Bytes → Upstream) :
    h.fetch uri upstream = h.fetch uri fun _ => upstream dest := by
  rw [fetch, fetch, hdest]

theorem proxied_destination {v : Visit} (hdest : h.destination v.request.uri = some dest) (s : History) :
    Handler.proxied h s v = Handler.proxied h s { v with upstream := fun _ => v.upstream dest } := by
  rw [Handler.proxied, Handler.proxied, ProxyHandler.handleRequest, ProxyHandler.handleRequest]
  dsimp only
  rw [← fetch_destination hdest]

end ProxyHandler

/-! ## Runs -/

namespace Process

open Server

section Run

variable {configBlocks : List ConfigBlock} {server : Server} {memory : Nat → Memory}
  {remaining : UInt64} {portNum : Int} {events : List Event}

/-- **A proxy location is its address**: in every run, an answer to a request below the location is
that of a proxy which is only told what is below its address. -/
theorem proxy_run (hstart : Server.start configBlocks = some server) :
    ∀ e ∈ Machine.trace (step memory) (start memory server remaining portNum) events,
      ∀ v, e.1.visitOf e.2 = some v → ∀ b location address t, Located configBlocks v.request.uri b →
        ProxyLocation b location address → v.request.uri = location ++ t →
        ¬ str "http" <+: v.request.uri →
        ∀ q, e.1.step memory e.2 = some q → ∃ response,
          Handler.proxied ⟨location, address⟩ e.1.site.history
              { v with upstream := fun _ => v.upstream (below address t) } =
            some (response, q.site.history) ∧
          q.sent = e.1.sent ++ [(e.2.operation.session, Dispatcher.dispatch response)] := by
  intro e he v hv b location address t hlocated hlocation huri hhttp q hstep
  obtain ⟨handler, response, hrouted, hreq, hsent⟩ :=
    (byConfig hstart (drift_run e he) hv).answered q hstep
  obtain rfl := Option.some.inj (hlocation.handler.symm.trans (hrouted.of_located hlocated))
  refine ⟨response, ?_, hsent⟩
  have hdest : (⟨location, address⟩ : ProxyHandler).destination v.request.uri =
      some (below address t) := by
    rw [huri] at hhttp ⊢
    exact destination_append (h := ⟨location, address⟩) hlocation.nonempty hhttp
  rw [← proxied_destination hdest]
  exact hreq

end Run

/-! ## One request -/

/-- A short request for a URI. -/
def request (uri : Bytes) : Chunk :=
  let text := str "GET " ++ uri ++ str " HTTP/1.1\r\n\r\n"
  if h : text.length ≤ maxLength then ⟨text, by simp [text, str], h⟩ else ReadState.shortRequest

/-- No files, and no upstream. -/
def nothing : Outside := ⟨⟨[], fun _ => none⟩, ⟨0, 0, 0, 0⟩, fun _ => .failed, [], true⟩

/-- A request that is answered, by a server that starts. -/
theorem exists_answer {configBlocks : List ConfigBlock} {uri : Bytes}
    (h : (Server.start configBlocks).bind (fun server =>
      ((start zeroMemory server 0 80).step zeroMemory (.accepted 0 (some (str "127.0.0.1")))).bind fun p =>
        (p.visitOf (.read 0 (request uri) nothing)).map fun v =>
          (v.request.uri, (p.step zeroMemory (.read 0 (request uri) nothing)).isSome)) = some (uri, true)) :
    ∃ server p q v, Server.start configBlocks = some server ∧
      (p, Event.read 0 (request uri) nothing) ∈ Machine.trace (step zeroMemory)
        (start zeroMemory server 0 80)
        [.accepted 0 (some (str "127.0.0.1")), .read 0 (request uri) nothing] ∧
      p.visitOf (.read 0 (request uri) nothing) = some v ∧ v.request.uri = uri ∧
      p.step zeroMemory (.read 0 (request uri) nothing) = some q := by
  obtain ⟨server, hserver, h⟩ := Option.bind_eq_some_iff.mp h
  obtain ⟨p, hp, h⟩ := Option.bind_eq_some_iff.mp h
  obtain ⟨v, hv, heq⟩ := Option.map_eq_some_iff.mp h
  obtain ⟨huri, hanswered⟩ := Prod.mk.inj heq
  obtain ⟨q, hq⟩ := Option.isSome_iff_exists.mp hanswered
  refine ⟨server, p, q, v, hserver, ?_, hv, huri, hq⟩
  rw [Machine.trace_some hp]
  exact List.mem_cons_of_mem _ List.mem_cons_self

/-- The only block is that of the URIs below it. -/
theorem located_singleton {b : ConfigBlock} {uri location t : Bytes} (hkey : b.blockPrefix = quote location)
    (huri : uri = location ++ ('/' : Byte) :: t) (hhttp : ¬ str "http" <+: uri) :
    Located [b] uri b := by
  have hlast : ∀ key, lastBlock [b] key = if b.blockPrefix = key then some b else none := fun key => by
    simp [lastBlock, List.find?_singleton]
  have hno : ∀ v : Bytes, location.length < v.length → lastBlock [b] (quote v) = none := by
    intro v hlt
    rw [hlast, if_neg]
    intro heq
    rw [quote_inj (hkey.symm.trans heq)] at hlt
    exact Nat.lt_irrefl _ hlt
  refine .before ?_ huri (by rw [hlast, if_pos hkey]) fun v _ _ hlt => hno v hlt
  rw [firstKey, if_neg fun hpre => hhttp (List.isPrefixOf_iff_prefix.mp hpre)]
  refine hno uri ?_
  rw [huri, List.length_append, List.length_cons]
  omega

/-- A request below a proxy location. -/
theorem proxy_run_address : ∃ (e : Event) (p q : Process) (v : Visit) (response : Response),
    p.visitOf e = some v ∧ p.step zeroMemory e = some q ∧
      Handler.proxied ⟨str "/p", str "a.com"⟩ p.site.history
          { v with upstream := fun _ => v.upstream (below (str "a.com") (str "/x")) } =
        some (response, q.site.history) ∧
      q.sent = p.sent ++ [(e.operation.session, Dispatcher.dispatch response)] := by
  let b : ConfigBlock := ⟨quote (str "/p"), str "ProxyHandler", [.mk [str "proxy_pass", str "\"a.com\""] none]⟩
  have hlocation : ProxyLocation b (str "/p") (str "a.com") :=
    ⟨rfl, rfl, ⟨_, rfl, by decide⟩, by decide, by decide⟩
  obtain ⟨server, p, q, v, hserver, hmem, hv, huri, hstep⟩ :=
    @exists_answer [b] (str "/p/x") (by decide +kernel)
  have hsplit : v.request.uri = str "/p" ++ ('/' : Byte) :: str "x" := huri
  have hhttp : ¬ str "http" <+: v.request.uri := by rw [huri]; decide
  have hlocated := located_singleton hlocation.key hsplit hhttp
  obtain ⟨response, hproxied, hsent⟩ :=
    proxy_run hserver _ hmem v hv b _ _ _ hlocated hlocation hsplit hhttp q hstep
  exact ⟨_, p, q, v, response, hv, hstep, hproxied, hsent⟩

end Process

end LowKeyWebServer
