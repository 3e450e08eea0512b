import LowKeyWebServer.Routing
import LowKeyWebServer.Containment

/-!
# Where a static request is resolved

A request for a static file is looked up twice: `good_request` looks for a handler, from the
whole URI on, and `replace_path` for a root, from the URI without its last segment on. Both
take what stands before a slash, the longest first, but only the first also takes the whole
URI, a key of its own for links, and the location `"/"` when there is nothing else.

`agrees_iff`: in every state of a server, the two choose the same location exactly if the
location's prefix is followed by a slash in the URI.
-/

namespace LowKeyWebServer

open PrefixSearch

namespace StaticFileHandler

/-- The loop of `replace_path` ends at the location. -/
def ResolvesAt (locationToRoot : LocationToRoot) (uri location : Bytes) : Prop :=
  ∃ subpath, (splitPath uri).1 = location ++ subpath ∧
    findRoot locationToRoot (splitPath uri).1 [] = some (root locationToRoot location, subpath)

/-- The path is the root followed by the rest, up to one slash where they meet. -/
def Joins (root rest path : Bytes) : Prop :=
  path = root ++ rest ∨ path = root ++ ('/' : Byte) :: rest ∨
    ∃ t, rest = ('/' : Byte) :: t ∧ path = root ++ t

/-- `replace_path` resolves the URI against the root of the location, and returns that root
and the rest of the URI. -/
structure Agrees (locationToRoot : LocationToRoot) (uri location : Bytes) : Prop where
  /-- the location is the one that the loop finds -/
  resolves : ResolvesAt locationToRoot uri location
  /-- the root is followed by the rest -/
  joins : ∃ rest, uri = location ++ rest ∧
    Joins (root locationToRoot location) rest (replacePath locationToRoot uri)
  /-- the path is not empty -/
  found : replacePath locationToRoot uri ≠ []

section

variable {locationToRoot : LocationToRoot} {uri location : Bytes}

/-- The loop ends at a location that has a root, and is followed by a slash. -/
theorem ResolvesAt.slash (huri : ('/' : Byte) ∈ uri) (h : ResolvesAt locationToRoot uri location) :
    root locationToRoot location ≠ [] ∧ ∃ t, uri = location ++ ('/' : Byte) :: t := by
  obtain ⟨subpath, hsplit, hfound⟩ := h
  rw [findRoot_eq] at hfound
  obtain ⟨found, hfind, hpair⟩ := Option.map_eq_some_iff.mp hfound
  have hmem := List.mem_of_find?_eq_some hfind
  obtain ⟨w, hw, -⟩ := mem_cuts_iff.mp hmem
  have hsub := (Prod.mk.inj hpair).2
  rw [hw, List.drop_left, List.append_nil] at hsub
  rw [hw, hsub] at hsplit
  obtain rfl := List.append_cancel_right hsplit
  rw [← before_eq_cuts huri] at hmem
  exact ⟨hasRoot_iff.mp (List.find?_some hfind), mem_before.mp hmem⟩

/-- The loop ends at the longest location that has a root. -/
theorem agrees_of_longest {t : Bytes} (huri : uri = location ++ ('/' : Byte) :: t)
    (hroot : root locationToRoot location ≠ [])
    (hlongest : ∀ u t', uri = u ++ ('/' : Byte) :: t' → location.length < u.length →
      root locationToRoot u = []) : Agrees locationToRoot uri location := by
  have hmem : ('/' : Byte) ∈ uri := huri ▸ List.mem_append_right _ List.mem_cons_self
  have hmatched : Matched locationToRoot uri location t := by
    refine ⟨.slash huri, hroot, fun u rest hsplits hlt => ?_⟩
    cases hsplits with
    | slash hu => exact hlongest u rest hu hlt
    | whole hno => exact absurd hmem hno
  have hpath := replacePath_eq hmatched
  refine ⟨?_, ⟨('/' : Byte) :: t, huri, Or.inl hpath⟩, ?_⟩
  · have hfind : (cuts ('/' : Byte) (splitPath uri).1).find? (hasRoot locationToRoot) = some location := by
      rw [← before_eq_cuts hmem]
      refine find?_before_iff.mpr ⟨mem_before.mpr ⟨t, huri⟩, hasRoot_iff.mpr hroot, fun u hu hroot' => ?_⟩
      obtain ⟨t', ht'⟩ := mem_before.mp hu
      by_contra hlt
      exact hasRoot_iff.mp hroot' (hlongest u t' ht' (Nat.not_le.mp hlt))
    obtain ⟨w, hw, -⟩ := mem_cuts_iff.mp (List.mem_of_find?_eq_some hfind)
    refine ⟨w, hw, ?_⟩
    rw [findRoot_eq, hfind, Option.map_some, hw, List.drop_left, List.append_nil]
  · rw [hpath]
    exact List.append_ne_nil_of_right_ne_nil _ (List.cons_ne_nil _ _)

end

end StaticFileHandler

namespace Server

open StaticFileHandler

theorem quote_inj {s t : Bytes} (h : quote s = quote t) : s = t := by
  rw [quote, quote, List.append_assoc, List.append_assoc] at h
  exact List.append_cancel_right (List.append_cancel_left h)

theorem unquote_quote (s : Bytes) : unquote (quote s) = some s := by
  have hquote : quote s = ('"' : Byte) :: (s ++ [('"' : Byte)]) := rfl
  rw [unquote, substr, hquote, if_pos (by simp)]
  simp

/-! ## The handler's location -/

/-- The key under which `handler_task` looks for the handler. -/
def routedKey (s : Server) (uri : Bytes) : Bytes :=
  let (found, temp) := findHandler s.handlersTackers uri (firstKey uri)
  if found then temp else str "\"/\""

/-- The request is handed to a static handler registered at the location. -/
def StaticAt (s : Server) (uri location : Bytes) : Prop :=
  s.routedKey uri = quote location ∧ (s.goodRequest uri).1 = .handler .static

variable {s s' : Server} {uri location : Bytes}

theorem handlerTask_handler {found : Bool} {key : Bytes} {h : Handler}
    (hcall : (s.handlerTask found key).1 = .handler h) :
    (s.index (if found then key else str "\"/\"")).1 = some h := by
  unfold handlerTask at hcall
  cases found
  all_goals
    simp only [Bool.not_true, Bool.not_false, if_true, if_false, Bool.false_eq_true] at hcall ⊢
    split at hcall
    · next hkey =>
      rw [hkey]
      cases hcall
      rfl
    · cases hcall

theorem handlerTask_state (found : Bool) (key : Bytes) :
    (s.handlerTask found key).2 = (s.index (if found then key else str "\"/\"")).2 := by
  unfold handlerTask
  cases found
  all_goals
    simp only [Bool.not_true, Bool.not_false, if_true, if_false, Bool.false_eq_true]
    split <;> next hkey => rw [hkey]

/-- A handler that is called is registered under the key. -/
theorem mem_of_handler {h : Handler} (hcall : (s.goodRequest uri).1 = .handler h) :
    s.routedKey uri ∈ s.handlersTackers := by
  have hindex : (s.index (s.routedKey uri)).1 = some h := handlerTask_handler hcall
  by_contra hno
  have hnone : (s.index (s.routedKey uri)).1 = none := Std.TreeMap.getD_eq_fallback hno
  cases hnone.symm.trans hindex

/-- **What the routing loop finds first**: its first key, or the longest registered prefix. -/
theorem findHandler_longest {tackers : StringMap (Option Handler)} {location temp : Bytes}
    (h : (findHandler tackers location temp).1 = true) :
    (findHandler tackers location temp).2 = temp ∨
      temp ∉ tackers ∧ ∃ u t, location = u ++ ('/' : Byte) :: t ∧
        (findHandler tackers location temp).2 = quote u ∧
        ∀ u' t', location = u' ++ ('/' : Byte) :: t' → u.length < u'.length →
          quote u' ∉ tackers := by
  rcases findHandler_eq tackers location temp with ⟨key, hkey, heq⟩ | ⟨-, hfalse⟩
  · rw [heq]
    rw [foundKey] at hkey
    split at hkey
    · exact Or.inl (Option.some.inj hkey).symm
    · next hmem =>
      obtain ⟨u, hu, rfl⟩ := Option.map_eq_some_iff.mp hkey
      obtain ⟨hbefore, -, hlongest⟩ := find?_longest (before_decreasing _ _) hu
      obtain ⟨t, ht⟩ := mem_before.mp hbefore
      refine Or.inr ⟨fun h => hmem (Std.TreeMap.contains_iff_mem.mpr h), u, t, ht, rfl, ?_⟩
      intro u' t' hu' hlen hreg
      have hle := hlongest u' (mem_before.mpr ⟨t', hu'⟩) (registered_iff.mpr hreg)
      omega
  · exact absurd (h.symm.trans hfalse) Bool.noConfusion

/-! ## The static data of a server -/

/-- Every location with a root has a handler, of this or of a later block. -/
def Registered (s : Server) : Prop :=
  ∀ location, root s.locationToRoot location ≠ [] → quote location ∈ s.handlersTackers

/-- A handler that is created leaves the roots as they are, but for that of its own location. -/
theorem createHandler_roots {key : Bytes} {b : ConfigBlock} {handler : Handler}
    {roots : LocationToRoot} (h : s.createHandler key b = some (handler, roots)) :
    roots = s.locationToRoot ∨
      ∃ temp r, unquote key = some temp ∧ roots = s.locationToRoot.insert temp r := by
  unfold createHandler at h
  split at h
  · obtain ⟨roots', hinit, heq⟩ := Option.map_eq_some_iff.mp h
    obtain ⟨-, rfl⟩ := Prod.mk.inj heq
    obtain ⟨r, -, hinit⟩ := Option.bind_eq_some_iff.mp hinit
    obtain ⟨temp, htemp, hinsert⟩ := Option.bind_eq_some_iff.mp hinit
    exact Or.inr ⟨temp, r, htemp, (Option.some.inj hinsert).symm⟩
  · refine Or.inl ?_
    repeat' split at h
    all_goals first
      | exact (Prod.mk.inj (Option.some.inj h)).2.symm
      | cases h
      | skip
    obtain ⟨_, -, heq⟩ := Option.map_eq_some_iff.mp h
    exact (Prod.mk.inj heq).2.symm

theorem Registered.addBlock {b : ConfigBlock} (hs : s.Registered)
    (hquoted : ∃ p, b.blockPrefix = quote p) (h : s.addBlock b = some s') : s'.Registered := by
  obtain ⟨p, hp⟩ := hquoted
  obtain ⟨⟨handler, roots⟩, hcreate, rfl⟩ := Option.map_eq_some_iff.mp h
  intro location hroot
  rw [Std.TreeMap.mem_insert, Std.LawfulEqCmp.compare_eq_iff_eq, hp]
  rcases createHandler_roots hcreate with rfl | ⟨temp, r, htemp, rfl⟩
  · exact Or.inr (hs location hroot)
  · rw [hp, unquote_quote] at htemp
    obtain rfl := Option.some.inj htemp
    by_cases hlocation : p = location
    · exact Or.inl (congrArg quote hlocation)
    · refine Or.inr (hs location ?_)
      rw [root, Std.TreeMap.getD_insert, if_neg] at hroot
      · exact hroot
      · rwa [Std.LawfulEqCmp.compare_eq_iff_eq]

theorem Registered.start {configBlocks : List ConfigBlock}
    (hquoted : ∀ b ∈ configBlocks, ∃ p, b.blockPrefix = quote p)
    (h : start configBlocks = some s) : s.Registered := by
  have hempty : Registered ⟨∅, ∅⟩ := fun location hroot => by simp [root] at hroot
  rw [Server.start] at h
  generalize (⟨∅, ∅⟩ : Server) = s₀ at h hempty
  induction configBlocks generalizing s₀ with
  | nil =>
    obtain rfl := Option.some.inj h
    exact hempty
  | cons b configBlocks ih =>
    rw [List.forall_mem_cons] at hquoted
    rw [List.foldlM_cons] at h
    obtain ⟨s₁, hadd, h⟩ := Option.bind_eq_some_iff.mp h
    exact ih hquoted.2 s₁ h (hempty.addBlock hquoted.1 hadd)

/-- A request keeps the roots, and all keys. -/
theorem step_keeps (h : step s uri = some s') : s'.locationToRoot = s.locationToRoot ∧
    ∀ key ∈ s.handlersTackers, key ∈ s'.handlersTackers := by
  have hstate : s' = (s.index (s.routedKey uri)).2 := by
    have hgood : (s.goodRequest uri).2 = (s.index (s.routedKey uri)).2 := handlerTask_state _ _
    rw [← hgood]
    rw [step] at h
    split at h
    · cases h
    · next hcall =>
      rw [hcall]
      exact (Option.some.inj h).symm
  rw [hstate]
  exact ⟨rfl, fun key hkey => Std.TreeMap.mem_insertIfNew.mpr (Or.inr hkey)⟩

theorem Registered.step (hs : s.Registered) (h : step s uri = some s') : s'.Registered := by
  obtain ⟨hroots, hkeys⟩ := step_keeps h
  intro location hroot
  rw [hroots] at hroot
  exact hkeys _ (hs location hroot)

/-! ## Agreement -/

/-- The location's prefix is followed by a slash, and has a root. -/
def Resolvable (s : Server) (uri location : Bytes) : Prop :=
  root s.locationToRoot location ≠ [] ∧ ∃ t, uri = location ++ ('/' : Byte) :: t

/-- Only the loop finds a location that is followed by a slash, and nothing longer. -/
theorem StaticAt.longest {t : Bytes} (h : s.StaticAt uri location)
    (huri : uri = location ++ ('/' : Byte) :: t) {u t' : Bytes} (hu : uri = u ++ ('/' : Byte) :: t')
    (hlen : location.length < u.length) : quote u ∉ s.handlersTackers := by
  have hmem := mem_of_handler h.2
  rw [h.1] at hmem
  have hkey := h.1
  rw [routedKey] at hkey
  by_cases hfound : (findHandler s.handlersTackers uri (firstKey uri)).1 = true
  · dsimp only at hkey
    rw [if_pos hfound] at hkey
    rcases findHandler_longest hfound with hfirst | ⟨-, v, tv, hv, heq, hlonger⟩
    · rw [hkey, firstKey] at hfirst
      split at hfirst
      · -- a link does not start with a slash
        next hhttp =>
        have hlocation : location = str "/http" := quote_inj hfirst
        rw [huri, hlocation] at hhttp
        cases hhttp
      · -- the whole URI is longer
        have hlen' := congrArg List.length (quote_inj hfirst)
        rw [huri, List.length_append, List.length_cons] at hlen'
        omega
    · obtain rfl := quote_inj (hkey.symm.trans heq)
      exact hlonger u t' hu hlen
  · have hcandidate := (@findHandler_found s.handlersTackers uri (firstKey uri)).mpr
      (Or.inr ⟨location, t, huri, hmem⟩)
    exact absurd hcandidate hfound

/-- **In one request** handed to a static handler. -/
theorem Registered.agrees_uri_iff (hs : s.Registered) (huri : ('/' : Byte) ∈ uri)
    (h : s.StaticAt uri location) :
    Agrees s.locationToRoot uri location ↔ s.Resolvable uri location := by
  constructor
  · exact fun hagrees => hagrees.resolves.slash huri
  · rintro ⟨hroot, t, ht⟩
    refine agrees_of_longest ht hroot fun u t' hu hlen => ?_
    by_contra hne
    exact h.longest ht hu hlen (hs u hne)

/-- **Routing and resolution choose the same location**, in every state of a server, exactly
if the location's prefix is followed by a slash in the URI, and its root is not empty. -/
theorem agrees_iff {configBlocks : List ConfigBlock} {server : Server}
    (hquoted : ∀ b ∈ configBlocks, ∃ p, b.blockPrefix = quote p)
    (h : start configBlocks = some server) (uris : List Bytes) :
    ∀ e ∈ Machine.trace step server uris, ('/' : Byte) ∈ e.2 → ∀ location, e.1.StaticAt e.2 location →
      (Agrees e.1.locationToRoot e.2 location ↔ e.1.Resolvable e.2 location) := by
  have hregistered : ∀ e ∈ Machine.trace step server uris, e.1.Registered :=
    Machine.forall_trace (fun _ => True) (fun _ _ _ hs _ hstep => hs.step hstep)
      (.start hquoted h) fun _ _ => trivial
  exact fun e he huri location hstatic => (hregistered e he).agrees_uri_iff huri hstatic

/-! ## One location -/

/-- A static location, as a config file has it. -/
def staticBlock (location path : Bytes) : ConfigBlock :=
  ⟨quote location, str "StaticHandler", [.mk [str "root", quote path] none]⟩

/-- The server of one static location. -/
def staticServer (location path : Bytes) : Server :=
  ⟨(∅ : StringMap (Option Handler)).insert (quote location) (some .static),
    (∅ : LocationToRoot).insert location path⟩

theorem start_staticBlock {location path : Bytes}
    (hroot : rootOf (configToStr 0 (staticBlock location path).content) = some path) :
    start [staticBlock location path] = some (staticServer location path) := by
  have hinit : StaticFileHandler.init ∅ (quote location) (staticBlock location path).content =
      some ((∅ : LocationToRoot).insert location path) := by
    rw [StaticFileHandler.init, hroot, unquote_quote]
    rfl
  have hcreate : createHandler ⟨∅, ∅⟩ (quote location) (staticBlock location path) =
      some (.static, (∅ : LocationToRoot).insert location path) := by
    have htype : (staticBlock location path).handlerType = str "StaticHandler" := rfl
    rw [createHandler, if_pos htype]
    exact congrArg (Option.map _) hinit
  have hadd : Server.addBlock ⟨∅, ∅⟩ (staticBlock location path) =
      some (staticServer location path) := congrArg (Option.map _) hcreate
  rw [start, List.foldlM_cons, hadd]
  rfl

theorem quoted_staticBlock {location path : Bytes} :
    ∀ b ∈ [staticBlock location path], b.blockPrefix = quote location := by
  intro b hb
  rw [List.mem_singleton.mp hb]
  rfl

/-- A file below a location is resolved there. -/
theorem agrees_static : Agrees (staticServer (str "/static") (str "/files")).locationToRoot
    (str "/static/a.txt") (str "/static") := by
  have hslash : ('/' : Byte) ∈ str "/static/a.txt" := by decide
  have hstatic : (staticServer (str "/static") (str "/files")).StaticAt (str "/static/a.txt")
      (str "/static") := ⟨by decide +kernel, by decide +kernel⟩
  have hresolvable : (staticServer (str "/static") (str "/files")).Resolvable (str "/static/a.txt")
      (str "/static") := ⟨by decide, str "a.txt", by decide⟩
  exact (agrees_iff (fun b hb => ⟨_, quoted_staticBlock b hb⟩) (start_staticBlock (by decide))
    [str "/static/a.txt"] _ List.mem_cons_self hslash _ hstatic).mpr hresolvable

/-- The location `"/"` takes the requests without another, and resolves none of them. -/
theorem not_agrees_root : ¬ ∀ configBlocks server uris,
    (∀ b ∈ configBlocks, ∃ p, p ≠ [] ∧ b.blockPrefix = quote p) → start configBlocks = some server →
    (∀ location ∈ server.locationToRoot, root server.locationToRoot location ≠ []) →
    ∀ e ∈ Machine.trace step server uris, ('/' : Byte) ∈ e.2 → ∀ location, e.1.StaticAt e.2 location →
      Agrees e.1.locationToRoot e.2 location := by
  intro hall
  have hroots : ∀ location ∈ (staticServer (str "/") (str "/files")).locationToRoot,
      root (staticServer (str "/") (str "/files")).locationToRoot location ≠ [] := by
    intro location hmem
    have hlocation : location = str "/" := by
      rw [staticServer, Std.TreeMap.mem_insert, Std.LawfulEqCmp.compare_eq_iff_eq] at hmem
      exact hmem.elim Eq.symm fun h => by simp at h
    rw [hlocation]
    decide
  have hslash : ('/' : Byte) ∈ str "/index.html" := by decide
  have hstatic : (staticServer (str "/") (str "/files")).StaticAt (str "/index.html") (str "/") :=
    ⟨by decide +kernel, by decide +kernel⟩
  have hagrees := hall _ _ [str "/index.html"]
    (fun b hb => ⟨str "/", by decide, quoted_staticBlock b hb⟩)
    (start_staticBlock (by decide)) hroots _ List.mem_cons_self hslash _ hstatic
  exact hagrees.found (by decide +kernel)

end Server

end LowKeyWebServer
