import LowKeyWebServer.Routing

/-!
# Stable routes

The requests of a run leave the map of handlers as it is, but for the null pointer under `"/"`
that `operator[]` may have put there (`Drift`). So a route never changes: `stable_run` says that
every request of a run is handed to whom the server would have handed it to at the start, unless
it meets that null pointer.
-/

namespace LowKeyWebServer

open PrefixSearch

namespace Server

/-- The key of the location `"/"`. -/
def rootKey : Bytes := str "\"/\""

/-- The later map has the same handlers, and perhaps a null pointer for an absent location `"/"`. -/
structure Drift (s s' : Server) : Prop where
  roots : s'.locationToRoot = s.locationToRoot
  key : ∀ key : Bytes, s'.handlersTackers[key]? = s.handlersTackers[key]? ∨
    (key = rootKey ∧ s.handlersTackers[key]? = none ∧ s'.handlersTackers[key]? = some none)

variable {s s' s'' : Server} {uri key : Bytes}

namespace Drift

theorem refl (s : Server) : Drift s s := ⟨rfl, fun _ => Or.inl rfl⟩

theorem trans (h : Drift s s') (h' : Drift s' s'') : Drift s s'' := by
  refine ⟨h'.roots.trans h.roots, fun key => ?_⟩
  rcases h.key key with heq | ⟨rfl, hnone, hnull⟩
  · rcases h'.key key with heq' | ⟨rfl, hnone, hnull⟩
    · exact Or.inl (heq'.trans heq)
    · exact Or.inr ⟨rfl, heq ▸ hnone, hnull⟩
  · rcases h'.key rootKey with heq' | ⟨-, hnone', -⟩
    · exact Or.inr ⟨rfl, hnone, heq'.trans hnull⟩
    · rw [hnull] at hnone'
      cases hnone'

/-- A registered key stays registered. -/
theorem mem (h : Drift s s') (hkey : key ∈ s.handlersTackers) : key ∈ s'.handlersTackers := by
  rw [Std.TreeMap.mem_iff_isSome_getElem?] at hkey ⊢
  rcases h.key key with heq | ⟨-, hnone, -⟩
  · rwa [heq]
  · rw [hnone] at hkey
    cases hkey

/-- A handler that is found has been there before. -/
theorem handler (h : Drift s s') {handler : Handler}
    (hget : s'.handlersTackers[key]? = some (some handler)) :
    s.handlersTackers[key]? = some (some handler) := by
  rcases h.key key with heq | ⟨-, -, hnull⟩
  · exact heq.symm.trans hget
  · rw [hnull] at hget
    cases hget

/-- What is not there, or null, is null through `operator[]` in both. -/
theorem getD (h : Drift s s') (key : Bytes) :
    s'.handlersTackers.getD key none = s.handlersTackers.getD key none := by
  rw [Std.TreeMap.getD_eq_getD_getElem?, Std.TreeMap.getD_eq_getD_getElem?]
  rcases h.key key with heq | ⟨-, hnone, hnull⟩
  · rw [heq]
  · rw [hnone, hnull]
    rfl

end Drift

/-! ## The routing loop -/

theorem contains_drift (h : Drift s s') (hkey : s.handlersTackers.contains key = true) :
    s'.handlersTackers.contains key = true :=
  Std.TreeMap.contains_iff_mem.mpr (h.mem (Std.TreeMap.contains_iff_mem.mp hkey))

theorem foundKey_mem {location temp : Bytes} (h : foundKey s.handlersTackers location temp = some key) :
    key ∈ s.handlersTackers := by
  rw [foundKey] at h
  split at h
  · next hmem =>
    rw [← Option.some.inj h]
    exact Std.TreeMap.contains_iff_mem.mp hmem
  · obtain ⟨u, hu, rfl⟩ := Option.map_eq_some_iff.mp h
    exact registered_iff.mp (List.find?_some hu)

/-- The loop finds nothing, if it finds nothing later. -/
theorem foundKey_none (h : Drift s s') {location temp : Bytes}
    (hnone : foundKey s'.handlersTackers location temp = none) :
    foundKey s.handlersTackers location temp = none := by
  rw [foundKey] at hnone ⊢
  split at hnone
  · cases hnone
  · next hfirst =>
    rw [if_neg fun hmem => hfirst (contains_drift h hmem)]
    rw [Option.map_eq_none_iff, List.find?_eq_none] at hnone ⊢
    exact fun u hu hreg => hnone u hu (contains_drift h hreg)

/-- The loop finds the key that it finds later, if that has been there. -/
theorem foundKey_some (h : Drift s s') {location temp : Bytes}
    (hsome : foundKey s'.handlersTackers location temp = some key) (hkey : key ∈ s.handlersTackers) :
    foundKey s.handlersTackers location temp = some key := by
  rw [foundKey] at hsome ⊢
  split at hsome
  · obtain rfl := Option.some.inj hsome
    rw [if_pos (Std.TreeMap.contains_iff_mem.mpr hkey)]
  · next hfirst =>
    rw [if_neg fun hmem => hfirst (contains_drift h hmem)]
    obtain ⟨u, hu, rfl⟩ := Option.map_eq_some_iff.mp hsome
    obtain ⟨-, as, bs, hl, hno⟩ := List.find?_eq_some_iff_append.mp hu
    have hfind : (before ('/' : Byte) location).find? (registered s.handlersTackers) = some u := by
      refine List.find?_eq_some_iff_append.mpr ⟨registered_iff.mpr hkey, as, bs, hl, fun a ha => ?_⟩
      -- the longer prefixes were not registered either
      rw [Bool.not_eq_true']
      refine Bool.eq_false_iff.mpr fun hreg => ?_
      have hnot := hno a ha
      rw [Bool.not_eq_true'] at hnot
      exact Bool.eq_false_iff.mp hnot (contains_drift h hreg)
    rw [hfind]
    rfl

/-! ## One request -/

/-- `operator[]` of a key that is registered, or of `"/"`. -/
theorem drift_index (hkey : key ∈ s.handlersTackers ∨ key = rootKey) : Drift s (s.index key).2 := by
  refine ⟨rfl, fun key' => ?_⟩
  rw [index]
  dsimp only
  rw [Std.TreeMap.getElem?_insertIfNew]
  split
  · next hnew =>
    obtain rfl := Std.LawfulEqCmp.compare_eq_iff_eq.mp hnew.1
    refine Or.inr ⟨hkey.resolve_left hnew.2, Std.TreeMap.getElem?_eq_none hnew.2, rfl⟩
  · exact Or.inl rfl

theorem index_drift (h : Drift s s') (key : Bytes) : Drift (s.index key).2 (s'.index key).2 := by
  refine ⟨h.roots, fun key' => ?_⟩
  rw [index, index]
  dsimp only
  rw [Std.TreeMap.getElem?_insertIfNew, Std.TreeMap.getElem?_insertIfNew]
  by_cases heq : key = key'
  · subst heq
    have hself : compare key key = .eq := Std.ReflCmp.compare_self
    simp only [hself, true_and]
    rcases h.key key with hsame | ⟨-, hnone, hnull⟩
    · have hmem : key ∈ s'.handlersTackers ↔ key ∈ s.handlersTackers := by
        rw [Std.TreeMap.mem_iff_isSome_getElem?, Std.TreeMap.mem_iff_isSome_getElem?, hsame]
      simp [hmem, hsame]
    · have habsent : key ∉ s.handlersTackers := by
        rw [Std.TreeMap.mem_iff_isSome_getElem?, hnone]
        exact Bool.false_ne_true
      rw [if_pos habsent, hnull]
      left
      split <;> rfl
  · have hne : compare key key' ≠ .eq := fun hcmp => heq (Std.LawfulEqCmp.compare_eq_iff_eq.mp hcmp)
    rw [if_neg fun hand => hne hand.1, if_neg fun hand => hne hand.1]
    exact h.key key'

/-- The key that a request is handled under. -/
def taskKey (s : Server) (uri : Bytes) : Bytes :=
  (foundKey s.handlersTackers uri (firstKey uri)).getD rootKey

theorem goodRequest_snd (s : Server) (uri : Bytes) : (s.goodRequest uri).2 = (s.index (s.taskKey uri)).2 := by
  rw [goodRequest, taskKey]
  rcases findHandler_eq s.handlersTackers uri (firstKey uri) with ⟨key, hkey, heq⟩ | ⟨hnone, hfalse⟩
  · rw [heq, hkey]
    dsimp only
    rw [handlerTask, Bool.not_true, if_neg Bool.false_ne_true, Option.getD_some]
    rcases s.index key with ⟨- | handler, s'⟩ <;> rfl
  · rcases hf : findHandler s.handlersTackers uri (firstKey uri) with ⟨found, temp⟩
    rw [hf] at hfalse
    obtain rfl : found = false := hfalse
    rw [hnone]
    dsimp only
    rw [handlerTask, Bool.not_false, if_pos rfl, Option.getD_none, ← rootKey]
    rcases s.index rootKey with ⟨- | handler, s'⟩ <;> rfl

/-- Who is behind a pointer: a null pointer is only called where a key has been found. -/
def calleeOf (found : Bool) : Option Handler → Callee
  | some handler => .handler handler
  | none => if found then .null else .errorHandler

/-- Whom a request is handed to. -/
theorem goodRequest_fst (s : Server) (uri : Bytes) : (s.goodRequest uri).1 =
    calleeOf (foundKey s.handlersTackers uri (firstKey uri)).isSome
      (s.handlersTackers.getD (s.taskKey uri) none) := by
  rw [goodRequest, taskKey]
  rcases findHandler_eq s.handlersTackers uri (firstKey uri) with ⟨key, hkey, heq⟩ | ⟨hnone, hfalse⟩
  · rw [heq, hkey]
    dsimp only
    rw [handlerTask, Bool.not_true, if_neg Bool.false_ne_true, Option.getD_some, index]
    rcases s.handlersTackers.getD key none with - | handler <;> rfl
  · rcases hf : findHandler s.handlersTackers uri (firstKey uri) with ⟨found, temp⟩
    rw [hf] at hfalse
    obtain rfl : found = false := hfalse
    rw [hnone]
    dsimp only
    rw [handlerTask, Bool.not_false, if_pos rfl, Option.getD_none, ← rootKey, index]
    rcases s.handlersTackers.getD rootKey none with - | handler <;> rfl

theorem taskKey_mem (s : Server) (uri : Bytes) :
    s.taskKey uri ∈ s.handlersTackers ∨ s.taskKey uri = rootKey := by
  rw [taskKey]
  rcases hfound : foundKey s.handlersTackers uri (firstKey uri) with - | key
  · exact Or.inr rfl
  · exact Or.inl (foundKey_mem hfound)

/-- A request only leaves the drift behind. -/
theorem drift_goodRequest (s : Server) (uri : Bytes) : Drift s (s.goodRequest uri).2 := by
  rw [goodRequest_snd]
  exact drift_index (s.taskKey_mem uri)

/-- **The route of a request** that meets no null pointer is the one it had before the drift, and
the two servers drift no further apart. -/
theorem goodRequest_drift (h : Drift s s') (hnull : (s'.goodRequest uri).1 ≠ .null) :
    (s.goodRequest uri).1 = (s'.goodRequest uri).1 ∧
      Drift (s.goodRequest uri).2 (s'.goodRequest uri).2 := by
  have hfound : foundKey s.handlersTackers uri (firstKey uri) =
      foundKey s'.handlersTackers uri (firstKey uri) := by
    rcases hfound' : foundKey s'.handlersTackers uri (firstKey uri) with - | key
    · exact foundKey_none h hfound'
    · refine foundKey_some h hfound' ?_
      rw [goodRequest_fst, taskKey, hfound', Option.getD_some] at hnull
      rcases hget : s'.handlersTackers.getD key none with - | handler
      · rw [hget] at hnull
        exact absurd rfl hnull
      · rw [h.getD] at hget
        by_contra habsent
        rw [Std.TreeMap.getD_eq_fallback habsent] at hget
        cases hget
  have htask : s.taskKey uri = s'.taskKey uri := by rw [taskKey, hfound, taskKey]
  refine ⟨?_, ?_⟩
  · rw [goodRequest_fst, goodRequest_fst, htask, hfound, h.getD]
  · rw [goodRequest_snd, goodRequest_snd, ← htask]
    exact index_drift h (s.taskKey uri)

/-! ## Runs -/

theorem drift_step (h : step s uri = some s') : Drift s s' := by
  have hdrift := drift_goodRequest s uri
  rw [step] at h
  split at h
  · cases h
  · next heq =>
    rw [heq] at hdrift
    obtain rfl := Option.some.inj h
    exact hdrift

/-- Where a handler is registered for every key, only the drift can be met as a null pointer. -/
theorem null_drift (hs : NoNull s) (h : Drift s s') (hnull : (s'.goodRequest uri).1 = .null) :
    rootKey ∉ s.handlersTackers := by
  rw [goodRequest_fst, taskKey] at hnull
  rcases hfound : foundKey s'.handlersTackers uri (firstKey uri) with - | key
  · rw [hfound, Option.getD_none] at hnull
    rcases hget : s'.handlersTackers.getD rootKey none with - | handler
    · rw [hget] at hnull
      cases hnull
    · rw [hget] at hnull
      cases hnull
  · rw [hfound, Option.getD_some] at hnull
    have hget : s'.handlersTackers[key]? = some none := by
      obtain ⟨handler, hget⟩ :=
        Option.isSome_iff_exists.mp (Std.TreeMap.mem_iff_isSome_getElem?.mp (foundKey_mem hfound))
      rw [Std.TreeMap.getD_eq_getD_getElem?, hget] at hnull
      rcases handler with - | handler
      · exact hget
      · cases hnull
    rcases h.key key with heq | ⟨rfl, hnone, -⟩
    · exact absurd (heq.symm.trans hget) (hs key)
    · rw [Std.TreeMap.mem_iff_isSome_getElem?, hnone]
      exact Bool.false_ne_true

/-- **Routes never change**: in a run of a server, every request is handed to whom it would have been
handed to at the start, unless it meets the null pointer of a location `"/"` that is not configured. -/
theorem stable_run {configBlocks : List ConfigBlock} {server : Server}
    (h : start configBlocks = some server) (uris : List Bytes) :
    ∀ e ∈ Machine.trace step server uris,
      (e.1.goodRequest e.2).1 = (server.goodRequest e.2).1 ∨
        ((e.1.goodRequest e.2).1 = .null ∧ ∀ b ∈ configBlocks, b.blockPrefix ≠ rootKey) := by
  have hdrift : ∀ e ∈ Machine.trace step server uris, Drift server e.1 :=
    Machine.forall_trace (fun _ => True) (fun _ _ _ hs _ h => hs.trans (drift_step h)) (Drift.refl server)
      fun _ _ => trivial
  obtain ⟨hno, hkeys⟩ := start_keys h
  intro e he
  by_cases hnull : (e.1.goodRequest e.2).1 = .null
  · refine Or.inr ⟨hnull, fun b hb hroot => ?_⟩
    exact null_drift hno (hdrift e he) hnull ((hkeys rootKey).mpr ⟨b, hb, hroot⟩)
  · exact Or.inl (goodRequest_drift (hdrift e he) hnull).1.symm

/-- The theorem at a server without a location `"/"`. -/
theorem stable_run_echo : ∃ server, start [⟨quote (str "/echo"), str "EchoHandler", []⟩] = some server ∧
    ∀ e ∈ Machine.trace step server [str "/x", str "/echo/a", str "/"],
      (e.1.goodRequest e.2).1 = (server.goodRequest e.2).1 ∨ ((e.1.goodRequest e.2).1 = .null ∧
        ∀ b ∈ ([⟨quote (str "/echo"), str "EchoHandler", []⟩] : List ConfigBlock),
          b.blockPrefix ≠ rootKey) := by
  have hstart : (start [⟨quote (str "/echo"), str "EchoHandler", []⟩]).isSome = true := by decide
  obtain ⟨server, h⟩ := Option.isSome_iff_exists.mp hstart
  exact ⟨server, h, stable_run h _⟩

end Server

end LowKeyWebServer
