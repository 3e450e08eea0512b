import LowKeyWebServer.CacheDirectives

/-!
# The cells of the cache

All proxy handlers and the cache handler share `cached_pages`, and a key of it is the URI alone.
`runCell` is what a call does as far as its own URI is concerned: it looks at one cell and changes no
other one. So the calls for a URI are answered as if there were no other calls (`cells_run`), and a
page that is stored stays, however old, until a call drops it (`kept_run`).
-/

namespace LowKeyWebServer

open Std

namespace ProxyHandler

/-! ## One cell -/

/-- The page of a URI, if there is one. -/
abbrev Cell : Type := Option CachedPage

namespace ProxyCall

/-- The call goes upstream; a page with code 200 is put into an empty cell, if it may be stored. -/
def fetchTo (c : ProxyCall) (cell : Cell) (store : Bool) : Option (Answer × Cell) :=
  (c.handler.fetch c.request.uri c.upstream).map fun res =>
    (.fetched res, if store = true ∧ res.code = Response.ok then
      cell.or (some ⟨res, c.clock.store, oneMin⟩) else cell)

/-- What a call with these directives does with the cell of its URI. -/
def runCell (c : ProxyCall) (cell : Cell) : Option (Answer × Cell) :=
  (parseCacheHdrs c.request.headers).bind fun hdrs =>
    if directive hdrs (str "no-cache") = 0 then
      match cell with
      | some page =>
        if directive hdrs (str "no-store") ≠ 0 then c.fetchTo none true
        else if (checkAge hdrs page c.clock).2 then some (.useCache page, cell)
        else c.fetchTo cell true
      | none =>
        if directive hdrs (str "only-if-cached") ≠ 0 then some (.noCache, none)
        else c.fetchTo none (directive hdrs (str "no-store") = 0)
    else c.fetchTo cell (directive hdrs (str "no-store") = 0)

variable {c : ProxyCall} {cache cache' : Cache} {answer : Answer}

/-- The cell of the URI after a page has been stored. -/
theorem getElem?_storeCache_self (cache : Cache) (uri : Bytes) (res : Response) (now : Int) :
    (storeCache cache uri res now)[uri]? = cache[uri]?.or (some ⟨res, now, oneMin⟩) := by
  rw [getElem?_storeCache]
  by_cases hmem : uri ∈ cache
  · obtain ⟨page, hpage⟩ := Option.isSome_iff_exists.mp (TreeMap.mem_iff_isSome_getElem?.mp hmem)
    rw [if_neg fun h => h.2 hmem, hpage, Option.some_or]
  · rw [if_pos ⟨rfl, hmem⟩, TreeMap.getElem?_eq_none hmem, Option.none_or]

/-- A call that goes upstream, seen from its cell. -/
theorem fetchTo_eq {hdrs : StringMap Int} {d : CacheDecision}
    (hhdrs : parseCacheHdrs c.request.headers = some hdrs)
    (hd : cacheControl cache hdrs c.request.uri (decide (directive hdrs (str "no-cache") ≠ 0)) c.clock = d)
    (huse : d.canUse = false) (honly : d.cacheOnly = false) :
    (c.run cache).map (fun out => (out.1, out.2[c.request.uri]?)) =
      c.fetchTo d.cache[c.request.uri]? d.shouldCache := by
  rw [run, handleRequest_fetch hhdrs hd huse honly, fetchTo, Option.map_map]
  refine congrArg (Option.map · _) (funext fun res => ?_)
  dsimp only [Function.comp_apply]
  split
  · rw [getElem?_storeCache_self]
  · rfl

/-- **A call is a call on its cell**: its answer, and the page afterwards. -/
theorem run_cell (c : ProxyCall) (cache : Cache) :
    (c.run cache).map (fun out => (out.1, out.2[c.request.uri]?)) = c.runCell cache[c.request.uri]? := by
  rw [runCell]
  rcases hhdrs : parseCacheHdrs c.request.headers with - | hdrs
  · rw [run, handleRequest, hhdrs]
    rfl
  rw [Option.bind_some]
  by_cases hno : directive hdrs (str "no-cache") = 0
  · have hv : decide (directive hdrs (str "no-cache") ≠ 0) = false := decide_eq_false (not_not.mpr hno)
    rw [if_pos hno]
    rcases hpage : cache[c.request.uri]? with - | page
    · dsimp only
      split
      · next honly =>
        rw [run, handleRequest_only hhdrs honly hno hpage, Option.map_some, hpage]
      · next honly =>
        have hd : cacheControl cache hdrs c.request.uri (decide (directive hdrs (str "no-cache") ≠ 0))
            c.clock = _ := cacheControl_none hdrs c.clock (Or.inr hpage)
        refine (fetchTo_eq hhdrs hd rfl ?_).trans ?_
        · rw [decide_eq_false honly, Bool.and_false]
        · rw [hpage]
    · dsimp only
      split
      · -- the page is dropped before the call goes upstream
        next hstore =>
        have hd := cacheControl_some hdrs c.clock hv hpage
        rw [if_pos hstore] at hd
        refine (fetchTo_eq hhdrs hd rfl rfl).trans ?_
        rw [TreeMap.getElem?_erase_self]
      · next hstore =>
        split
        · next hage =>
          have huse : ¬ Refuses hdrs page c.clock := by
            rw [Refuses, not_or, not_or]
            exact ⟨not_not.mpr hno, hstore, by rw [hage]; exact Bool.noConfusion⟩
          rw [run, handleRequest_use hhdrs hpage huse, Option.map_some, hpage]
        · next hage =>
          rw [Bool.not_eq_true] at hage
          have hd := cacheControl_some hdrs c.clock hv hpage
          rw [if_neg hstore, hage] at hd
          refine (fetchTo_eq hhdrs hd rfl rfl).trans ?_
          rw [hpage]
  · rw [if_neg hno]
    have hv : decide (directive hdrs (str "no-cache") ≠ 0) = true := decide_eq_true hno
    have hd : cacheControl cache hdrs c.request.uri (decide (directive hdrs (str "no-cache") ≠ 0))
        c.clock = _ := cacheControl_none hdrs c.clock (Or.inl hv)
    refine fetchTo_eq hhdrs hd rfl ?_
    rw [hv]
    rfl

/-- **The other cells** are left alone. -/
theorem run_frame (h : c.run cache = some (answer, cache')) {u : Bytes} (hu : u ≠ c.request.uri) :
    cache'[u]? = cache[u]? := by
  have hne : ¬ c.request.uri = u := hu.symm
  have hstore : ∀ (before : Cache) (res : Response),
      (if res.code = Response.ok then storeCache before c.request.uri res c.clock.store else before)[u]? =
        before[u]? := by
    intro before res
    split
    · rw [getElem?_storeCache, if_neg fun h => hne h.1]
    · rfl
  obtain ⟨hdrs, hhdrs⟩ := exists_hdrs h
  rcases handleRequest_cases hhdrs h with ⟨page, -, -, -, rfl⟩ | ⟨-, rfl⟩ | ⟨res, -, -, hcase⟩
  · rfl
  · rfl
  · rcases hcase with ⟨-, -, -, rfl⟩ | ⟨-, -, rfl⟩ | ⟨-, -, rfl⟩
    · rw [hstore, TreeMap.getElem?_erase, if_neg (by simpa using hne)]
    · rfl
    · rw [hstore]

end ProxyCall

/-! ## Runs -/

/-- The cache, and what the calls for each URI have been answered. -/
structure Answered : Type where
  /-- `cached_pages` -/
  cache : Cache
  /-- the answers -/
  answers : Bytes → List Answer

/-- One call. -/
def Answered.step (s : Answered) (c : ProxyCall) : Option Answered :=
  (c.run s.cache).map fun out =>
    ⟨out.2, Function.update s.answers c.request.uri (s.answers c.request.uri ++ [out.1])⟩

/-- One cell, and what its calls have been answered. -/
structure AnsweredCell : Type where
  cell : Cell
  answers : List Answer

/-- One call for the URI of the cell. -/
def AnsweredCell.step (t : AnsweredCell) (c : ProxyCall) : Option AnsweredCell :=
  (c.runCell t.cell).map fun out => ⟨out.2, t.answers ++ [out.1]⟩

/-- What there is of a URI. -/
def Answered.cellOf (s : Answered) (u : Bytes) : AnsweredCell := ⟨s.cache[u]?, s.answers u⟩

section Answered

variable {s s' : Answered} {c : ProxyCall}

/-- **One call** is one call on its cell. -/
theorem Answered.step_self (h : s.step c = some s') :
    (s.cellOf c.request.uri).step c = some (s'.cellOf c.request.uri) := by
  obtain ⟨⟨answer, cache'⟩, hrun, rfl⟩ := Option.map_eq_some_iff.mp h
  have hcell := c.run_cell s.cache
  rw [hrun, Option.map_some] at hcell
  rw [AnsweredCell.step, cellOf, ← hcell, Option.map_some, cellOf]
  dsimp only
  rw [Function.update_self]

/-- **One call** is nothing for any other cell. -/
theorem Answered.step_other (h : s.step c = some s') {u : Bytes} (hu : u ≠ c.request.uri) :
    s'.cellOf u = s.cellOf u := by
  obtain ⟨⟨answer, cache'⟩, hrun, rfl⟩ := Option.map_eq_some_iff.mp h
  rw [cellOf, cellOf]
  dsimp only
  rw [Function.update_of_ne hu, ProxyCall.run_frame hrun hu]

/-- **The calls for a URI are answered as if there were no other**: in any run, with any handlers and
any other calls in between, their answers and the page in the end are those of their own run on the
one cell. -/
theorem Answered.cells_run {calls : List ProxyCall} (h : calls.foldlM Answered.step s = some s')
    (u : Bytes) :
    (calls.filter fun c => c.request.uri = u).foldlM AnsweredCell.step (s.cellOf u) =
      some (s'.cellOf u) := by
  have hkeep : ∀ (s : Answered) (c : ProxyCall) (s' : Answered) (t : AnsweredCell), s.cellOf u = t →
      decide (c.request.uri = u) = true → s.step c = some s' →
      ∃ t', t.step c = some t' ∧ s'.cellOf u = t' := by
    rintro s c s' - rfl hu hstep
    obtain rfl := of_decide_eq_true hu
    exact ⟨_, step_self hstep, rfl⟩
  have hskip : ∀ (s : Answered) (c : ProxyCall) (s' : Answered) (t : AnsweredCell), s.cellOf u = t →
      decide (c.request.uri = u) = false → s.step c = some s' → s'.cellOf u = t := by
    rintro s c s' - rfl hu hstep
    exact step_other hstep (Ne.symm (of_decide_eq_false hu))
  obtain ⟨t, ht, rfl⟩ := Machine.simulates_filter _ hkeep hskip rfl h
  exact ht

/-- The same page of another place. -/
def otherPage : ProxyCall where
  handler := ⟨[], []⟩
  request := ⟨.get, str "http://b/", ∅, [], str "HTTP/1.1"⟩
  clock := ⟨0, 0, 0, 0⟩
  upstream := fun _ => .reply 200 [] (str "X")

/-- The theorem at a call that comes between two others. -/
theorem Answered.cells_run_between : ∃ s,
    [CacheRun.getPage [] (str "A"), otherPage, CacheRun.getPage [] (str "B")].foldlM Answered.step
      ⟨∅, fun _ => []⟩ = some s ∧
    ([CacheRun.getPage [] (str "A"), otherPage, CacheRun.getPage [] (str "B")].filter fun c =>
      c.request.uri = str "http://a/").foldlM AnsweredCell.step
        ((⟨∅, fun _ => []⟩ : Answered).cellOf (str "http://a/")) = some (s.cellOf (str "http://a/")) := by
  have hsome : ([CacheRun.getPage [] (str "A"), otherPage, CacheRun.getPage [] (str "B")].foldlM
      Answered.step ⟨∅, fun _ => []⟩).isSome = true := by decide +kernel
  obtain ⟨s, hs⟩ := Option.isSome_iff_exists.mp hsome
  exact ⟨s, hs, cells_run hs _⟩

end Answered

/-! ## How long a page stays -/

/-- The call drops the page of its URI: it has `no-store`, and no `no-cache`. -/
def ProxyCall.Drops (c : ProxyCall) : Prop :=
  ∃ hdrs ∈ parseCacheHdrs c.request.headers, directive hdrs (str "no-cache") = 0 ∧
    directive hdrs (str "no-store") ≠ 0

instance (c : ProxyCall) : Decidable c.Drops := by
  unfold ProxyCall.Drops
  infer_instance

/-- A call that goes upstream leaves a page where it is. -/
theorem ProxyCall.fetchTo_some {c : ProxyCall} {page : CachedPage} {store : Bool} {answer : Answer}
    {cell : Cell} (h : c.fetchTo (some page) store = some (answer, cell)) : cell = some page := by
  obtain ⟨res, -, heq⟩ := Option.map_eq_some_iff.mp h
  obtain ⟨-, rfl⟩ := Prod.mk.inj heq
  rw [Option.some_or, ite_self]

/-- **One call** keeps a page that it does not drop. -/
theorem ProxyCall.runCell_keeps {c : ProxyCall} {page : CachedPage} {answer : Answer} {cell : Cell}
    (hdrops : ¬ c.Drops) (h : c.runCell (some page) = some (answer, cell)) : cell = some page := by
  obtain ⟨hdrs, hhdrs, h⟩ := Option.bind_eq_some_iff.mp h
  dsimp only at h
  split at h
  · next hno =>
    split at h
    · next hstore => exact absurd ⟨hdrs, hhdrs, hno, hstore⟩ hdrops
    · split at h
      · exact (Prod.mk.inj (Option.some.inj h)).2.symm
      · exact fetchTo_some h
  · exact fetchTo_some h

/-- **A page stays until it is dropped**: through any run whose calls for its URI do not drop it, the
same page is in the cache, whatever its age, what the calls fetch, and what happens to other URIs. -/
theorem Answered.kept_run {s : Answered} {u : Bytes} {page : CachedPage} (hpage : s.cache[u]? = some page)
    {calls : List ProxyCall}
    (hcalls : ∀ e ∈ Machine.trace Answered.step s calls, e.2.request.uri = u → ¬ e.2.Drops) :
    ∀ e ∈ Machine.trace Answered.step s calls, e.1.cache[u]? = some page := by
  have hstep : ∀ (s : Answered) (c : ProxyCall) (s' : Answered), s.cache[u]? = some page →
      (c.request.uri = u → ¬ c.Drops) → s.step c = some s' → s'.cache[u]? = some page := by
    intro s c s' hpage hdrops hstep
    by_cases hu : u = c.request.uri
    · subst hu
      obtain ⟨⟨answer, cell⟩, hrun, heq⟩ := Option.map_eq_some_iff.mp (step_self hstep)
      have hcell : cell = s'.cache[c.request.uri]? := congrArg AnsweredCell.cell heq
      rw [cellOf, hpage] at hrun
      rw [← hcell, ProxyCall.runCell_keeps (hdrops rfl) hrun]
    · rw [← hpage]
      exact congrArg AnsweredCell.cell (step_other hstep hu)
  exact @Machine.forall_trace _ _ _ (fun s : Answered => s.cache[u]? = some page)
    (fun e => e.2.request.uri = u → ¬ e.2.Drops) hstep _ hpage _ hcalls

/-- The theorem at a page that a call fetches again. -/
theorem Answered.kept_run_refetched : ∃ page s, onePage[str "http://a/"]? = some page ∧
    Answered.step ⟨onePage, fun _ => []⟩ (CacheRun.getPage (str "no-cache") (str "B")) = some s ∧
      s.cache[str "http://a/"]? = some page := by
  have hsome : (onePage[str "http://a/"]?).isSome = true ∧ (Answered.step ⟨onePage, fun _ => []⟩
      (CacheRun.getPage (str "no-cache") (str "B"))).isSome = true := by decide +kernel
  obtain ⟨page, hpage⟩ := Option.isSome_iff_exists.mp hsome.1
  obtain ⟨s, hs⟩ := Option.isSome_iff_exists.mp hsome.2
  have hall := @kept_run ⟨onePage, fun _ => []⟩ _ page hpage
    [CacheRun.getPage (str "no-cache") (str "B"), CacheRun.getPage [] (str "C")] (by decide +kernel)
  rw [Machine.trace_some hs] at hall
  exact ⟨page, s, hpage, hs, hall _ (List.mem_cons_of_mem _ List.mem_cons_self)⟩

end ProxyHandler

end LowKeyWebServer
