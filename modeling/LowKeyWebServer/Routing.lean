import LowKeyWebServer.Server
import LowKeyWebServer.Lib.Trace

/-!
# Null handlers

A handler is looked up under the candidates of a URI: the URI itself, and what stands before
each of its slashes (`findHandler_found`). A request without a candidate makes `handler_task`
look for the location `"/"` with `operator[]`; if that is not configured, a null pointer is
registered for it, and the next request that finds it is handled through that.

`run_iff`: a run is without null handlers exactly if `"/"` is configured, or every request in
it has a candidate.
-/

namespace LowKeyWebServer

open PrefixSearch

namespace Server

/-! ## Candidates -/

/-- A key that the routing loop looks up for a URI. -/
inductive Candidate (uri : Bytes) : Bytes → Prop where
  | first : Candidate uri (firstKey uri)
  | before {u t : Bytes} : uri = u ++ ('/' : Byte) :: t → Candidate uri (quote u)

variable {tackers : StringMap (Option Handler)}

/-- The prefix is registered, in quotation marks. -/
def registered (tackers : StringMap (Option Handler)) (u : Bytes) : Bool := tackers.contains (quote u)

theorem registered_iff {u : Bytes} : registered tackers u = true ↔ quote u ∈ tackers :=
  Std.TreeMap.contains_iff_mem

/-- The key that is found: the first one that is looked up, or that of the longest prefix. -/
def foundKey (tackers : StringMap (Option Handler)) (location temp : Bytes) : Option Bytes :=
  if tackers.contains temp then some temp
  else ((before ('/' : Byte) location).find? (registered tackers)).map quote

/-- From the key of a whole location on, the prefixes are its cuts. -/
theorem foundKey_quote (tackers : StringMap (Option Handler)) (location : Bytes) :
    foundKey tackers location (quote location) =
      ((cuts ('/' : Byte) location).find? (registered tackers)).map quote := by
  rw [foundKey, cuts]
  by_cases hmem : tackers.contains (quote location) = true
  · have hreg : registered tackers location = true := hmem
    rw [if_pos hmem, List.find?_cons_of_pos hreg]
    rfl
  · have hreg : ¬ registered tackers location = true := hmem
    rw [if_neg hmem, List.find?_cons_of_neg hreg]

/-- **The routing loop** looks up its first key, and then the prefixes in turn. -/
theorem findHandler_eq (tackers : StringMap (Option Handler)) (location temp : Bytes) :
    (∃ key, foundKey tackers location temp = some key ∧
      findHandler tackers location temp = (true, key)) ∨
    (foundKey tackers location temp = none ∧ (findHandler tackers location temp).1 = false) := by
  fun_induction findHandler tackers location temp with
  | case1 location temp hmem => exact Or.inl ⟨temp, if_pos hmem, rfl⟩
  | case2 location temp hmem hnone =>
    refine Or.inr ⟨?_, rfl⟩
    rw [foundKey, if_neg hmem, before_of_findLastOf_none hnone]
    rfl
  | case3 location temp hmem pos hpos hlt ih =>
    have hnext : foundKey tackers location temp =
        foundKey tackers (location.take pos) (quote (location.take pos)) := by
      rw [foundKey_quote, foundKey, if_neg hmem, before_of_findLastOf hpos]
    rwa [hnext]

/-- The routing loop ends at a registered key, if it finds one. -/
theorem findHandler_mem {location temp : Bytes} (h : (findHandler tackers location temp).1 = true) :
    (findHandler tackers location temp).2 ∈ tackers := by
  rcases findHandler_eq tackers location temp with ⟨key, hkey, heq⟩ | ⟨-, hfalse⟩
  · rw [heq]
    rw [foundKey] at hkey
    split at hkey
    · next hmem => exact Option.some.inj hkey ▸ Std.TreeMap.contains_iff_mem.mp hmem
    · obtain ⟨u, hu, rfl⟩ := Option.map_eq_some_iff.mp hkey
      exact registered_iff.mp (List.find?_some hu)
  · exact absurd (h.symm.trans hfalse) Bool.noConfusion

/-- **What the routing loop finds**: some key among those that it looks up. -/
theorem findHandler_found {location temp : Bytes} :
    (findHandler tackers location temp).1 = true ↔
      temp ∈ tackers ∨ ∃ u t, location = u ++ ('/' : Byte) :: t ∧ quote u ∈ tackers := by
  have hsome : (findHandler tackers location temp).1 = (foundKey tackers location temp).isSome := by
    rcases findHandler_eq tackers location temp with ⟨key, hkey, heq⟩ | ⟨hnone, hfalse⟩
    · rw [hkey, heq]
      rfl
    · rw [hnone, hfalse]
      rfl
  rw [hsome, foundKey]
  by_cases hmem : temp ∈ tackers
  · rw [if_pos (Std.TreeMap.contains_iff_mem.mpr hmem)]
    exact iff_of_true rfl (Or.inl hmem)
  · rw [if_neg fun h => hmem (Std.TreeMap.contains_iff_mem.mp h), Option.isSome_map, List.find?_isSome,
      or_iff_right hmem]
    constructor
    · rintro ⟨u, hu, hreg⟩
      obtain ⟨t, ht⟩ := mem_before.mp hu
      exact ⟨u, t, ht, registered_iff.mp hreg⟩
    · rintro ⟨u, t, ht, hreg⟩
      exact ⟨u, mem_before.mpr ⟨t, ht⟩, registered_iff.mpr hreg⟩

/-- A registered key is found for a URI if one of its candidates is registered. -/
theorem findHandler_uri (tackers : StringMap (Option Handler)) (uri : Bytes) :
    (findHandler tackers uri (firstKey uri)).1 = true ↔ ∃ key, Candidate uri key ∧ key ∈ tackers := by
  rw [findHandler_found]
  constructor
  · rintro (h | ⟨u, t, huri, h⟩)
    · exact ⟨_, .first, h⟩
    · exact ⟨_, .before huri, h⟩
  · rintro ⟨key, hkey, h⟩
    cases hkey with
    | first => exact Or.inl h
    | before huri => exact Or.inr ⟨_, _, huri, h⟩

/-! ## One request -/

/-- Every key maps to a handler. -/
def NoNull (s : Server) : Prop := ∀ key : Bytes, s.handlersTackers[key]? ≠ some none

/-- The same handlers are registered. -/
def Same (s s' : Server) : Prop :=
  ∀ key : Bytes, s'.handlersTackers[key]? = s.handlersTackers[key]?

theorem NoNull.same {s s' : Server} (hs : NoNull s) (h : Same s s') : NoNull s' := fun key => by
  rw [h key]
  exact hs key

theorem Same.mem {s s' : Server} (h : Same s s') {key : Bytes} :
    key ∈ s'.handlersTackers ↔ key ∈ s.handlersTackers := by
  rw [Std.TreeMap.mem_iff_isSome_getElem?, Std.TreeMap.mem_iff_isSome_getElem?, h key]

/-- Where no pointer is null, `operator[]` of a registered key changes nothing. -/
theorem index_mem {s : Server} (hs : NoNull s) {key : Bytes} (hkey : key ∈ s.handlersTackers) :
    ∃ h s', s.index key = (some h, s') ∧ Same s s' := by
  have hsome := Std.TreeMap.mem_iff_isSome_getElem?.mp hkey
  obtain ⟨handler, hget⟩ := Option.isSome_iff_exists.mp hsome
  obtain ⟨h, rfl⟩ : ∃ h, handler = some h := by
    rcases handler with - | h
    · exact absurd hget (hs key)
    · exact ⟨h, rfl⟩
  refine ⟨h, { s with handlersTackers := s.handlersTackers.insertIfNew key none }, ?_, fun key' => ?_⟩
  · rw [index, Std.TreeMap.getD_eq_getD_getElem?, hget]
    rfl
  · exact Std.TreeMap.getElem?_insertIfNew.trans (if_neg fun hno => hno.2 hkey)

/-- `operator[]` of an absent key registers a null pointer. -/
theorem index_not_mem {s : Server} {key : Bytes} (hkey : key ∉ s.handlersTackers) :
    ∃ s', s.index key = (none, s') ∧ ¬ NoNull s' := by
  refine ⟨{ s with handlersTackers := s.handlersTackers.insertIfNew key none }, ?_, fun hno => ?_⟩
  · rw [index, Std.TreeMap.getD_eq_fallback hkey]
  · exact hno key (Std.TreeMap.getElem?_insertIfNew.trans (if_pos ⟨Std.ReflCmp.compare_self, hkey⟩))

/-- A request is handled: by no null pointer, and without leaving one behind. -/
def Handled (e : Server × Bytes) : Prop := ∃ s', step e.1 e.2 = some s' ∧ NoNull s'

/-- **One request**: with a candidate, or with a location `"/"`, it is handled by a registered
handler, which stay the same. -/
theorem step_same {s : Server} (hs : NoNull s) {uri : Bytes}
    (h : quote (str "/") ∈ s.handlersTackers ∨ ∃ key, Candidate uri key ∧ key ∈ s.handlersTackers) :
    ∃ s', step s uri = some s' ∧ Same s s' := by
  have hfound := findHandler_uri s.handlersTackers uri
  have hmem := @findHandler_mem s.handlersTackers uri (firstKey uri)
  rw [step, goodRequest]
  rcases hf : findHandler s.handlersTackers uri (firstKey uri) with ⟨found, temp⟩
  rw [hf] at hfound hmem
  dsimp only at hfound hmem ⊢
  cases found with
  | true =>
    obtain ⟨handler, s', hindex, hsame⟩ := index_mem hs (hmem rfl)
    rw [handlerTask, Bool.not_true, if_neg Bool.false_ne_true, hindex]
    exact ⟨s', rfl, hsame⟩
  | false =>
    have hroot : quote (str "/") ∈ s.handlersTackers :=
      h.resolve_right fun hcand => Bool.false_ne_true (hfound.mpr hcand)
    obtain ⟨handler, s', hindex, hsame⟩ := index_mem hs hroot
    have hindex' : s.index (str "\"/\"") = (some handler, s') := hindex
    rw [handlerTask, Bool.not_false, if_pos rfl, hindex']
    exact ⟨s', rfl, hsame⟩

/-- Without both, a null pointer is left behind. -/
theorem not_handled {s : Server} {uri : Bytes} (hroot : quote (str "/") ∉ s.handlersTackers)
    (hcand : ¬ ∃ key, Candidate uri key ∧ key ∈ s.handlersTackers) : ¬ Handled (s, uri) := by
  rintro ⟨s', hstep, hs'⟩
  have hfound := findHandler_uri s.handlersTackers uri
  dsimp only at hstep
  rw [step, goodRequest] at hstep
  rcases hf : findHandler s.handlersTackers uri (firstKey uri) with ⟨found, temp⟩
  rw [hf] at hfound hstep
  dsimp only at hfound hstep
  cases found with
  | true => exact hcand (hfound.mp rfl)
  | false =>
    obtain ⟨s'', hindex, hnull⟩ := index_not_mem hroot
    have hindex' : s.index (str "\"/\"") = (none, s'') := hindex
    rw [handlerTask, Bool.not_false, if_pos rfl, hindex'] at hstep
    obtain rfl := Option.some.inj hstep
    exact hnull hs'

/-! ## Runs -/

/-- A run from a state with the same handlers. -/
theorem run_iff {s₀ s : Server} (hs₀ : NoNull s₀) (hs : Same s₀ s) (uris : List Bytes) :
    (∀ e ∈ Machine.trace step s uris, Handled e) ↔ quote (str "/") ∈ s₀.handlersTackers ∨
      ∀ uri ∈ uris, ∃ key, Candidate uri key ∧ key ∈ s₀.handlersTackers := by
  induction uris generalizing s with
  | nil => exact ⟨fun _ => Or.inr fun _ h => absurd h List.not_mem_nil, fun _ _ h => by cases h⟩
  | cons uri uris ih =>
    rw [Machine.forall_trace_cons, List.forall_mem_cons]
    by_cases hok : quote (str "/") ∈ s₀.handlersTackers ∨
        ∃ key, Candidate uri key ∧ key ∈ s₀.handlersTackers
    · have hok' : quote (str "/") ∈ s.handlersTackers ∨
          ∃ key, Candidate uri key ∧ key ∈ s.handlersTackers := by
        simpa only [hs.mem] using hok
      obtain ⟨s', hstep, hsame⟩ := step_same (hs₀.same hs) hok'
      have hs' : Same s₀ s' := fun key => (hsame key).trans (hs key)
      have hhandled : Handled (s, uri) := ⟨s', hstep, hs₀.same hs'⟩
      have hrest : (∀ s'', step s uri = some s'' → ∀ e ∈ Machine.trace step s'' uris, Handled e) ↔
          ∀ e ∈ Machine.trace step s' uris, Handled e := by
        rw [hstep]
        simp
      rw [and_iff_right hhandled, hrest, ih hs', or_and_left, and_iff_right hok]
    · rw [not_or] at hok
      have hnot : ¬ Handled (s, uri) := not_handled (fun h => hok.1 (hs.mem.mp h))
        (fun ⟨key, hkey, h⟩ => hok.2 ⟨key, hkey, hs.mem.mp h⟩)
      simp [hnot, hok.1, hok.2]

/-! ## The configured locations -/

/-- The constructor registers the prefixes of its blocks, each with a handler. -/
theorem foldlM_addBlock {configBlocks : List ConfigBlock} {s server : Server} (hs : NoNull s)
    (h : configBlocks.foldlM addBlock s = some server) : NoNull server ∧ ∀ key,
      key ∈ server.handlersTackers ↔
        key ∈ s.handlersTackers ∨ ∃ b ∈ configBlocks, b.blockPrefix = key := by
  induction configBlocks generalizing s with
  | nil =>
    obtain rfl := Option.some.inj h
    exact ⟨hs, fun key => by simp⟩
  | cons b configBlocks ih =>
    rw [List.foldlM_cons] at h
    obtain ⟨s', hadd, h⟩ := Option.bind_eq_some_iff.mp h
    obtain ⟨⟨handler, roots⟩, -, rfl⟩ := Option.map_eq_some_iff.mp hadd
    have hs' : NoNull ⟨s.handlersTackers.insert b.blockPrefix (some handler), roots⟩ := by
      intro key
      rw [Std.TreeMap.getElem?_insert]
      split
      · exact fun hnull => nomatch hnull
      · exact hs key
    obtain ⟨hno, hmem⟩ := ih hs' h
    refine ⟨hno, fun key => ?_⟩
    rw [hmem, Std.TreeMap.mem_insert, Std.LawfulEqCmp.compare_eq_iff_eq]
    simp only [List.mem_cons, exists_eq_or_imp]
    tauto

theorem start_keys {configBlocks : List ConfigBlock} {server : Server}
    (h : start configBlocks = some server) : NoNull server ∧ ∀ key,
      key ∈ server.handlersTackers ↔ ∃ b ∈ configBlocks, b.blockPrefix = key := by
  have hempty : NoNull ⟨∅, ∅⟩ := fun key => by simp
  obtain ⟨hno, hmem⟩ := foldlM_addBlock hempty h
  exact ⟨hno, fun key => by simpa using hmem key⟩

/-- One of the configured locations is a candidate of the URI. -/
def Routable (configBlocks : List ConfigBlock) (uri : Bytes) : Prop :=
  ∃ b ∈ configBlocks, Candidate uri b.blockPrefix

/-- **When no request of a run meets a null pointer**, nor leaves one behind: exactly when the
location `"/"` is configured, or every request has a configured location. -/
theorem handled_iff {configBlocks : List ConfigBlock} {server : Server}
    (h : start configBlocks = some server) (uris : List Bytes) :
    (∀ e ∈ Machine.trace step server uris, Handled e) ↔
      (∃ b ∈ configBlocks, b.blockPrefix = quote (str "/")) ∨
        ∀ uri ∈ uris, Routable configBlocks uri := by
  obtain ⟨hno, hmem⟩ := start_keys h
  have hroutable : ∀ uri, (∃ key, Candidate uri key ∧ key ∈ server.handlersTackers) ↔
      Routable configBlocks uri := by
    intro uri
    simp only [hmem, Routable]
    constructor
    · rintro ⟨key, hkey, b, hb, rfl⟩
      exact ⟨b, hb, hkey⟩
    · rintro ⟨b, hb, hkey⟩
      exact ⟨_, hkey, b, hb, rfl⟩
  rw [run_iff hno (fun _ => rfl), hmem]
  exact or_congr_right (forall₂_congr fun uri _ => hroutable uri)

/-- With a location `"/"`, a request for anything is handled. -/
theorem handled_root : ∃ server, start [⟨quote (str "/"), str "EchoHandler", []⟩] = some server ∧
    ∀ e ∈ Machine.trace step server [str "/x", str "/"], Handled e := by
  have hstart : (start [⟨quote (str "/"), str "EchoHandler", []⟩]).isSome = true := by decide
  obtain ⟨server, h⟩ := Option.isSome_iff_exists.mp hstart
  exact ⟨server, h, (handled_iff h _).mpr (Or.inl ⟨_, List.mem_singleton_self _, rfl⟩)⟩

/-- Without it, the first request that has no location leaves a null pointer behind. -/
theorem not_handled_other : ¬ ∀ configBlocks server uris, start configBlocks = some server →
    ∀ e ∈ Machine.trace step server uris, Handled e := by
  intro hall
  have hstart : (start [⟨quote (str "/echo"), str "EchoHandler", []⟩]).isSome = true := by
    decide
  obtain ⟨server, h⟩ := Option.isSome_iff_exists.mp hstart
  obtain ⟨-, hmem⟩ := start_keys h
  have hkey : ∀ key, key ∈ server.handlersTackers → key = quote (str "/echo") := by
    intro key hk
    obtain ⟨b, hb, rfl⟩ := (hmem key).mp hk
    rw [List.mem_singleton.mp hb]
  have hhandled := hall _ server [str "/x", str "/"] h (server, str "/x") List.mem_cons_self
  refine not_handled (fun hroot => ?_) ?_ hhandled
  · exact absurd (hkey _ hroot) (by decide)
  · rintro ⟨key, hcand, hk⟩
    obtain rfl := hkey key hk
    generalize hquote : quote (str "/echo") = key at hcand
    cases hcand with
    | first => exact absurd hquote (by decide)
    | @before u t huri =>
      have hlen := congrArg List.length hquote
      have hlen' := congrArg List.length huri
      simp [quote, str] at hlen hlen'
      omega

end Server

end LowKeyWebServer
