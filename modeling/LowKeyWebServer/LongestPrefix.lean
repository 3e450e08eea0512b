import LowKeyWebServer.StaticRouting
import LowKeyWebServer.Lib.PrefixSearch

/-!
# The longest prefix of a URI

The two loops that cut a URI at its last slash, again and again, as they are written, with the
position of the slash in an `int`.

* `routesLongest_iff`: the routing loop of `good_request` ends at the longest registered candidate;
* `resolvesLongest_run`: `replace_path` ends at the longest location with a root, in every sequence of
  calls; the empty roots that its lookups insert are never found.

Where all slashes are in the range of `int`, they do what `findHandler` and `replacePath` do
(`runFindHandler_of_short`, `runReplacePath_of_short`).
-/

namespace LowKeyWebServer

open Std PrefixSearch

/-! ## Slashes -/

/-- Every slash is at a position below the bound. -/
def SlashesBelow (bound : Nat) (s : Bytes) : Prop := ∀ u t, s = u ++ ('/' : Byte) :: t → u.length < bound

/-- The last slash is, and so are those before it. -/
theorem SlashesBelow.last {bound i : Nat} {s : Bytes} (h : SlashesBelow bound s)
    (hpos : findLastOf '/' s = some i) : i < bound ∧ SlashesBelow bound (s.take i) := by
  obtain ⟨hsplit, -⟩ := findLastOf_eq_some hpos
  refine ⟨?_, fun u t hu => h u (t ++ ('/' : Byte) :: s.drop (i + 1)) ?_⟩
  · have hlen := h _ _ hsplit
    rwa [List.length_take_of_le (Nat.le_of_lt (findLastOf_lt hpos))] at hlen
  · rw [hu, List.append_assoc] at hsplit
    exact hsplit

/-- Otherwise the last slash is not. -/
theorem exists_last_of_not {bound : Nat} {s : Bytes} (h : ¬ SlashesBelow bound s) :
    ∃ i, findLastOf '/' s = some i ∧ bound ≤ i := by
  rw [SlashesBelow] at h
  push Not at h
  obtain ⟨u, t, rfl, hle⟩ := h
  obtain ⟨i, hpos, hi⟩ := exists_findLastOf '/' u t
  exact ⟨i, hpos, Nat.le_trans hle hi⟩

namespace Server

variable {tackers : StringMap (Option Handler)} {uri : Bytes}

/-! ## Routing -/

/-- A candidate: the URI itself, or what stands before one of its slashes. -/
def IsCandidate (uri u : Bytes) : Prop := u = uri ∨ ∃ t, uri = u ++ ('/' : Byte) :: t

/-- The longest candidate that is registered. -/
structure LongestRegistered (tackers : StringMap (Option Handler)) (uri u : Bytes) : Prop where
  candidate : IsCandidate uri u
  registered : quote u ∈ tackers
  longest : ∀ v, IsCandidate uri v → quote v ∈ tackers → v.length ≤ u.length

/-- The routing loop ends, at the longest registered candidate if there is one, and without a handler
exactly if there is none. -/
def RoutesLongest (tackers : StringMap (Option Handler)) (uri : Bytes) : Prop :=
  ∃ fuel found temp, runFindHandler tackers fuel uri (firstKey uri) = some (found, temp) ∧
    ((∃ u, IsCandidate uri u ∧ quote u ∈ tackers) →
      ∃ u, LongestRegistered tackers uri u ∧ found = true ∧ temp = quote u) ∧
    (found = false ↔ ∀ u, IsCandidate uri u → quote u ∉ tackers)

/-- The URI itself is registered, or its slashes are at positions that are an `int`. -/
def ShortRoute (tackers : StringMap (Option Handler)) (uri : Bytes) : Prop :=
  quote uri ∈ tackers ∨ SlashesBelow (2 ^ 31) uri

theorem mem_cuts_iff {u : Bytes} : u ∈ cuts ('/' : Byte) uri ↔ IsCandidate uri u := by
  rw [cuts, List.mem_cons, mem_before, IsCandidate]

theorem firstKey_plain (hhttp : ¬ str "http" <+: uri) : firstKey uri = quote uri :=
  if_neg fun hpre => hhttp (List.isPrefixOf_iff_prefix.mp hpre)

/-- What the loop over unbounded positions ends at. -/
theorem findHandler_candidates (tackers : StringMap (Option Handler)) {uri : Bytes}
    (hhttp : ¬ str "http" <+: uri) :
    ((∃ u, IsCandidate uri u ∧ quote u ∈ tackers) →
      ∃ u, LongestRegistered tackers uri u ∧ findHandler tackers uri (firstKey uri) = (true, quote u)) ∧
    ((findHandler tackers uri (firstKey uri)).1 = false ↔
      ∀ u, IsCandidate uri u → quote u ∉ tackers) := by
  have heq := findHandler_eq tackers uri (quote uri)
  rw [foundKey_quote] at heq
  rw [firstKey_plain hhttp]
  rcases hfind : (cuts ('/' : Byte) uri).find? (registered tackers) with - | u
  · have hnone : ∀ u, IsCandidate uri u → quote u ∉ tackers := by
      intro u hu hmem
      exact List.find?_eq_none.mp hfind u (mem_cuts_iff.mpr hu) (registered_iff.mpr hmem)
    rw [hfind] at heq
    rcases heq with ⟨key, hkey, -⟩ | ⟨-, hfalse⟩
    · cases hkey
    · exact ⟨fun ⟨u, hu, hmem⟩ => absurd hmem (hnone u hu), iff_of_true hfalse hnone⟩
  · obtain ⟨hmem, hreg, hlongest⟩ := find?_longest (cuts_decreasing _ _) hfind
    have hu : LongestRegistered tackers uri u :=
      ⟨mem_cuts_iff.mp hmem, registered_iff.mp hreg,
        fun v hv hv' => hlongest v (mem_cuts_iff.mpr hv) (registered_iff.mpr hv')⟩
    rw [hfind] at heq
    rcases heq with ⟨key, hkey, hfound⟩ | ⟨hkey, -⟩
    · obtain rfl := Option.some.inj hkey
      refine ⟨fun _ => ⟨u, hu, hfound⟩, ?_⟩
      rw [hfound]
      exact iff_of_false Bool.noConfusion fun hall => hall u hu.candidate hu.registered
    · cases hkey

/-- **The loop** while all slashes are at positions that are an `int`. -/
theorem runFindHandler_of_short {location temp : Bytes} (h : SlashesBelow (2 ^ 31) location) :
    ∃ fuel, runFindHandler tackers fuel location temp = some (findHandler tackers location temp) := by
  fun_induction findHandler tackers location temp with
  | case1 location temp hmem =>
    refine ⟨1, ?_⟩
    rw [runFindHandler, if_pos hmem]
  | case2 location temp hmem hnone =>
    refine ⟨1, ?_⟩
    rw [runFindHandler, if_neg hmem, findLastOfInt_none hnone]
    rfl
  | case3 location temp hmem pos hpos hlt ih =>
    obtain ⟨hshort, hbefore⟩ := h.last hpos
    obtain ⟨fuel, hfuel⟩ := ih hbefore
    refine ⟨fuel + 1, ?_⟩
    rw [runFindHandler, if_neg hmem, findLastOfInt_some hpos hshort, if_neg (by omega),
      unsignedSize_nat (by omega)]
    exact hfuel

/-- **The loop** where the last one is not: nothing is cut off, so it never ends. -/
theorem runFindHandler_of_long {i : Nat} (hno : quote uri ∉ tackers)
    (hpos : findLastOf '/' uri = some i) (hi : 2 ^ 31 ≤ i) (hlen : uri.length < 2 ^ 32) (fuel : Nat) :
    runFindHandler tackers fuel uri (quote uri) = none := by
  have hlt := findLastOf_lt hpos
  have hint : findLastOfInt '/' uri = i - 2 ^ 32 := findLastOfInt_wrap hpos hi (by omega)
  have hsize := le_unsignedSize (p := i - 2 ^ 32) (by omega) (by omega)
  have htake : uri.take (unsignedSize (i - 2 ^ 32)) = uri := List.take_of_length_le (by omega)
  induction fuel with
  | zero => rfl
  | succ fuel ih =>
    rw [runFindHandler, if_neg (TreeMap.contains_iff_mem.not.mpr hno), hint, if_neg (by omega)]
    simp only [htake]
    exact ih

theorem routesLongest_of_short (hhttp : ¬ str "http" <+: uri) (h : ShortRoute tackers uri) :
    RoutesLongest tackers uri := by
  rcases h with hmem | hshort
  · refine ⟨1, true, quote uri, ?_, fun _ => ⟨uri, ⟨Or.inl rfl, hmem, ?_⟩, rfl, rfl⟩, ?_⟩
    · rw [firstKey_plain hhttp, runFindHandler, if_pos (TreeMap.contains_iff_mem.mpr hmem)]
    · rintro v (rfl | ⟨t, rfl⟩) -
      · exact Nat.le_refl _
      · rw [List.length_append]
        exact Nat.le_add_right _ _
    · exact iff_of_false Bool.noConfusion fun hall => hall uri (Or.inl rfl) hmem
  · obtain ⟨fuel, hfuel⟩ := @runFindHandler_of_short tackers uri (firstKey uri) hshort
    obtain ⟨hfound, hnone⟩ := findHandler_candidates tackers hhttp
    refine ⟨fuel, _, _, hfuel, fun hsome => ?_, hnone⟩
    obtain ⟨u, hu, heq⟩ := hfound hsome
    exact ⟨u, hu, congrArg Prod.fst heq, congrArg Prod.snd heq⟩

/-- Below 4 GiB it does not end where a slash is out of range. -/
theorem not_routesLongest_of_long (hhttp : ¬ str "http" <+: uri) (hlen : uri.length < 2 ^ 32)
    (h : ¬ ShortRoute tackers uri) : ¬ RoutesLongest tackers uri := by
  rw [ShortRoute, not_or] at h
  obtain ⟨hno, hlong⟩ := h
  obtain ⟨i, hpos, hi⟩ := exists_last_of_not hlong
  rintro ⟨fuel, found, temp, hrun, -⟩
  rw [firstKey_plain hhttp, runFindHandler_of_long hno hpos hi hlen fuel] at hrun
  cases hrun

/-- **The routing loop** ends at the longest registered candidate, if there is one, and without
a handler exactly if there is none: where the URI is registered, or its slashes are at positions that
are an `int`, and below 4 GiB only there. -/
theorem routesLongest_iff (tackers : StringMap (Option Handler)) {uri : Bytes}
    (hhttp : ¬ str "http" <+: uri) :
    (ShortRoute tackers uri → RoutesLongest tackers uri) ∧
    (uri.length < 2 ^ 32 → (RoutesLongest tackers uri ↔ ShortRoute tackers uri)) := by
  refine ⟨routesLongest_of_short hhttp, fun hlen => ⟨fun h => ?_, routesLongest_of_short hhttp⟩⟩
  by_contra hlong
  exact not_routesLongest_of_long hhttp hlen hlong h

/-- A URI whose second slash is out of range, without a handler: the loop never ends. -/
theorem not_routesLongest_long :
    ¬ ∀ (tackers : StringMap (Option Handler)) (uri : Bytes), ¬ str "http" <+: uri →
      RoutesLongest tackers uri := by
  intro hall
  obtain ⟨n, hn⟩ : ∃ n : Nat, n = 2 ^ 31 := ⟨_, rfl⟩
  let uri : Bytes := ('/' : Byte) :: List.replicate n ('a' : Byte) ++ [('/' : Byte)]
  have hhttp : ¬ str "http" <+: uri := fun h => absurd (List.cons_prefix_cons.mp h).1 (by decide)
  have hlen : uri.length = n + 2 := by simp [uri]
  refine not_routesLongest_of_long hhttp (by omega) ?_ (hall ∅ uri hhttp)
  rintro (hmem | hshort)
  · exact TreeMap.not_mem_emptyc hmem
  · have hlast := hshort _ [] rfl
    rw [List.length_cons, List.length_replicate] at hlast
    omega

/-- Two locations, one below the other. -/
def twoLocations : StringMap (Option Handler) :=
  ((∅ : StringMap (Option Handler)).insert (quote (str "/a")) (some .echo)).insert
    (quote (str "/a/b")) (some .echo)

/-- The theorem at a URI below both. -/
theorem routesLongest_below :
    ∃ fuel, runFindHandler twoLocations fuel (str "/a/b/c") (firstKey (str "/a/b/c")) =
      some (true, quote (str "/a/b")) := by
  have hhttp : ¬ str "http" <+: str "/a/b/c" := by decide
  have hcandidate : IsCandidate (str "/a/b/c") (str "/a/b") := Or.inr ⟨str "c", rfl⟩
  have hregistered : quote (str "/a/b") ∈ twoLocations := by decide
  have hshort : ShortRoute twoLocations (str "/a/b/c") := by
    refine Or.inr fun u t hu => ?_
    have hlen := congrArg List.length hu
    rw [List.length_append] at hlen
    have huri : (str "/a/b/c").length = 6 := rfl
    omega
  obtain ⟨fuel, found, temp, hrun, hsome, -⟩ := (routesLongest_iff twoLocations hhttp).1 hshort
  obtain ⟨u, ⟨-, hmem, hlongest⟩, rfl, rfl⟩ := hsome ⟨str "/a/b", hcandidate, hregistered⟩
  have hlen : (str "/a/b").length ≤ u.length := hlongest _ hcandidate hregistered
  refine ⟨fuel, ?_⟩
  rw [hrun]
  rw [twoLocations, TreeMap.mem_insert, TreeMap.mem_insert, LawfulEqCmp.compare_eq_iff_eq,
    LawfulEqCmp.compare_eq_iff_eq] at hmem
  rcases hmem with hmem | hmem | hmem
  · rw [hmem]
  · obtain rfl := quote_inj hmem
    exact absurd hlen (by decide)
  · exact absurd hmem TreeMap.not_mem_emptyc

end Server

namespace StaticFileHandler

/-! ## Roots -/

/-- `locationToRoot[key]`: an absent key is inserted, with an empty root. -/
def index (locationToRoot : LocationToRoot) (key : Bytes) : Bytes × LocationToRoot :=
  (locationToRoot.getD key [], locationToRoot.insertIfNew key [])

/-- The loop of `replace_path`, with fuel: the path, or what `substr` throws (`none`), and the map. The
position of the last slash is an `int`. -/
def replaceLoop (file : Bytes) : Nat → LocationToRoot → Bytes → Bytes →
    Option (Option Bytes × LocationToRoot)
  | 0, _, _, _ => none
  | fuel + 1, locationToRoot, location, subpath =>
    let (root, locationToRoot) := index locationToRoot location
    if root ≠ [] then
      let (root, locationToRoot) := index locationToRoot location
      some (some (root ++ subpath ++ str "/" ++ file), locationToRoot)
    else
      let pos := findLastOfInt '/' location
      if pos = -1 then some (some [], locationToRoot)
      else
        match substr location (unsignedSize pos) with
        | none => some (none, locationToRoot)
        | some rest =>
          replaceLoop file fuel locationToRoot (location.take (unsignedSize pos)) (rest ++ subpath)

/-- `StaticFileHandler::replace_path`, with fuel for its loop. -/
def runReplacePath (fuel : Nat) (locationToRoot : LocationToRoot) (path : Bytes) :
    Option (Option Bytes × LocationToRoot) :=
  let pos := behindLastInt '/' path
  match substr path (unsignedSize pos) with
  | none => some (none, locationToRoot)
  | some file => replaceLoop file fuel locationToRoot (path.take (unsignedSize (pos - 1))) []

variable {locationToRoot m : LocationToRoot} {uri : Bytes}

/-- The same locations have the same roots. -/
def SameRoots (locationToRoot m : LocationToRoot) : Prop :=
  ∀ location, root m location = root locationToRoot location

/-- A lookup inserts nothing that would be found. -/
theorem SameRoots.index (h : SameRoots locationToRoot m) (key : Bytes) :
    (StaticFileHandler.index m key).1 = root locationToRoot key ∧
      SameRoots locationToRoot (StaticFileHandler.index m key).2 := by
  refine ⟨h key, fun location => ?_⟩
  rw [← h location, root, root, StaticFileHandler.index, TreeMap.getD_insertIfNew]
  split
  · next hnew => rw [← LawfulEqCmp.eq_of_compare hnew.1, TreeMap.getD_eq_fallback hnew.2]
  · rfl

/-- The longest prefix of the URI that ends just before a slash and has a root, and the rest. -/
structure LongestRoot (locationToRoot : LocationToRoot) (uri location rest : Bytes) : Prop where
  split : uri = location ++ rest
  slash : rest.head? = some ('/' : Byte)
  root : root locationToRoot location ≠ []
  longest : ∀ location' t, uri = location' ++ ('/' : Byte) :: t →
    StaticFileHandler.root locationToRoot location' ≠ [] → location'.length ≤ location.length

theorem LongestRoot.of_matched (huri : ('/' : Byte) ∈ uri) {location rest : Bytes}
    (h : Matched locationToRoot uri location rest) :
    LongestRoot locationToRoot uri location (('/' : Byte) :: rest) := by
  obtain ⟨hsplits, hroot, hlongest⟩ := h
  cases hsplits with
  | slash hsplit =>
    refine ⟨hsplit, rfl, hroot, fun location' t hsplit' hroot' => ?_⟩
    by_contra hlt
    exact hroot' (hlongest location' t (.slash hsplit') (Nat.not_le.mp hlt))
  | whole hno => exact absurd huri hno

/-- What `replacePath` is for a URI with a slash. -/
theorem replacePath_longest (locationToRoot : LocationToRoot) (huri : ('/' : Byte) ∈ uri) :
    (∃ location rest, LongestRoot locationToRoot uri location rest ∧
      replacePath locationToRoot uri = root locationToRoot location ++ rest) ∨
    ((∀ location t, uri = location ++ ('/' : Byte) :: t → root locationToRoot location = []) ∧
      replacePath locationToRoot uri = []) := by
  rcases replacePath_cases locationToRoot uri with ⟨location, rest, hmatched, hpath⟩ | ⟨hno, hpath⟩
  · exact Or.inl ⟨location, _, .of_matched huri hmatched, hpath⟩
  · exact Or.inr ⟨fun location t hsplit => hno location t (.slash hsplit), hpath⟩

/-! ### Positions in an `int` -/

/-- **The loop** returns what it returns with any map of the same roots, and keeps them. -/
theorem SameRoots.replaceLoop (h : SameRoots locationToRoot m) (file : Bytes) (fuel : Nat)
    (location subpath : Bytes) :
    (StaticFileHandler.replaceLoop file fuel m location subpath).map Prod.fst =
        (StaticFileHandler.replaceLoop file fuel locationToRoot location subpath).map Prod.fst ∧
      ∀ r ∈ StaticFileHandler.replaceLoop file fuel m location subpath,
        SameRoots locationToRoot r.2 := by
  induction fuel generalizing locationToRoot m location subpath with
  | zero => exact ⟨rfl, fun r hr => by cases hr⟩
  | succ fuel ih =>
    obtain ⟨hroot, hm⟩ := h.index location
    obtain ⟨hroot', hl⟩ := SameRoots.index (fun _ => rfl) location
    have hsame : SameRoots (StaticFileHandler.index locationToRoot location).2
        (StaticFileHandler.index m location).2 := fun key => (hm key).trans (hl key).symm
    rw [StaticFileHandler.replaceLoop, StaticFileHandler.replaceLoop]
    dsimp only
    rw [hroot, hroot']
    split
    · obtain ⟨hagain, hkeep⟩ := hsame.index location
      refine ⟨by rw [hagain]; rfl, fun r hr => ?_⟩
      obtain rfl := Option.some.inj hr
      exact fun key => (hkeep key).trans (hl key)
    · split
      · refine ⟨rfl, fun r hr => ?_⟩
        obtain rfl := Option.some.inj hr
        exact hm
      · rcases substr location (unsignedSize (findLastOfInt '/' location)) with - | rest
        · refine ⟨rfl, fun r hr => ?_⟩
          obtain rfl := Option.some.inj hr
          exact hm
        · obtain ⟨hresult, hkeep⟩ := ih hsame (location.take (unsignedSize (findLastOfInt '/' location)))
            (rest ++ subpath)
          exact ⟨hresult, fun r hr key => (hkeep r hr key).trans (hl key)⟩

/-- **One call**. -/
theorem SameRoots.runReplacePath (h : SameRoots locationToRoot m) (fuel : Nat) (path : Bytes) :
    (StaticFileHandler.runReplacePath fuel m path).map Prod.fst =
        (StaticFileHandler.runReplacePath fuel locationToRoot path).map Prod.fst ∧
      ∀ r ∈ StaticFileHandler.runReplacePath fuel m path, SameRoots locationToRoot r.2 := by
  rw [StaticFileHandler.runReplacePath, StaticFileHandler.runReplacePath]
  split
  · refine ⟨rfl, fun r hr => ?_⟩
    obtain rfl := Option.some.inj hr
    exact h
  · exact h.replaceLoop _ fuel _ []

/-- **The loop** while all slashes are at positions that are an `int`: it ends where `findRoot` does. -/
theorem replaceLoop_of_short {file location subpath : Bytes} (h : SlashesBelow (2 ^ 31) location)
    (m : LocationToRoot) (hsame : SameRoots locationToRoot m) :
    ∃ fuel m', replaceLoop file fuel m location subpath =
      some (some (match findRoot locationToRoot location subpath with
        | some (root, subpath) => root ++ subpath ++ str "/" ++ file
        | none => []), m') := by
  revert m
  fun_induction findRoot locationToRoot location subpath with
  | case1 location subpath root hr =>
    intro m hsame
    obtain ⟨hroot, hm⟩ := hsame.index location
    obtain ⟨hagain, -⟩ := hm.index location
    refine ⟨1, (index (index m location).2 location).2, ?_⟩
    rw [replaceLoop]
    dsimp only
    rw [hroot, hagain]
    exact if_pos hr
  | case2 location subpath root hr hnone =>
    intro m hsame
    obtain ⟨hroot, -⟩ := hsame.index location
    refine ⟨1, (index m location).2, ?_⟩
    rw [replaceLoop, findLastOfInt_none hnone]
    dsimp only
    rw [hroot]
    exact if_neg hr
  | case3 location subpath root hr pos hpos hlt ih =>
    intro m hsame
    obtain ⟨hroot, hm⟩ := hsame.index location
    obtain ⟨hshort, hbefore⟩ := h.last hpos
    obtain ⟨fuel, m', hfuel⟩ := ih hbefore _ hm
    have hsubstr : substr location pos = some (location.drop pos) := if_pos (Nat.le_of_lt hlt)
    refine ⟨fuel + 1, m', ?_⟩
    rw [replaceLoop]
    dsimp only
    rw [hroot]
    refine (if_neg hr).trans ?_
    rw [findLastOfInt_some hpos hshort, if_neg (by omega), unsignedSize_nat (by omega), hsubstr]
    exact hfuel

/-- **One call** where the positions behind the slashes are an `int`: the path is that of the roots, in
every map that has them. -/
theorem runReplacePath_of_short (hsame : SameRoots locationToRoot m) (h : SlashesBelow (2 ^ 31 - 1) uri)
    (hsize : ('/' : Byte) ∉ uri → uri.length < 2 ^ 64) :
    ∃ fuel m', runReplacePath fuel m uri = some (some (replacePath locationToRoot uri), m') := by
  rw [replacePath, splitPath]
  rcases hpos : findLastOf '/' uri with - | i
  · have hno := findLastOf_eq_none hpos
    have hbelow : SlashesBelow (2 ^ 31) uri := fun u t hu =>
      absurd (hu ▸ List.mem_append_right u List.mem_cons_self) hno
    obtain ⟨fuel, m', hfuel⟩ := replaceLoop_of_short hbelow m hsame
    refine ⟨fuel, m', ?_⟩
    have hfile : substr uri (unsignedSize 0) = some uri := if_pos (Nat.zero_le _)
    have hlocation : uri.take (unsignedSize (0 - 1)) = uri :=
      List.take_of_length_le (Nat.le_pred_of_lt (hsize hno))
    rw [runReplacePath, behindLastInt_none hpos]
    simp only [hfile, hlocation]
    exact hfuel
  · obtain ⟨hi, hbefore⟩ := h.last hpos
    have hlt := findLastOf_lt hpos
    have hbelow : SlashesBelow (2 ^ 31) (uri.take i) := fun u t hu =>
      (hbefore u t hu).trans_le (by decide)
    obtain ⟨fuel, m', hfuel⟩ := replaceLoop_of_short hbelow m hsame
    refine ⟨fuel, m', ?_⟩
    have hfile : substr uri (i + 1) = some (uri.drop (i + 1)) := if_pos (by omega)
    have hsize : unsignedSize ((i : Int) + 1) = i + 1 := unsignedSize_nat (n := i + 1) (by omega)
    have hback : (i : Int) + 1 - 1 = i := by omega
    rw [runReplacePath, behindLastInt_some hpos (by omega)]
    simp only [hback, hsize, unsignedSize_nat (n := i) (by omega), hfile]
    exact hfuel

/-- **One call** where they are not, below 4 GiB: `substr` throws. -/
theorem runReplacePath_of_long (hlen : uri.length < 2 ^ 32) (h : ¬ SlashesBelow (2 ^ 31 - 1) uri)
    (fuel : Nat) : runReplacePath fuel m uri = some (none, m) := by
  obtain ⟨i, hpos, hle⟩ := exists_last_of_not h
  have hlt := findLastOf_lt hpos
  have hsize := le_unsignedSize (p := i + 1 - 2 ^ 32) (by omega) (by omega)
  have hthrow : substr uri (unsignedSize (i + 1 - 2 ^ 32)) = none := if_neg (by omega)
  rw [runReplacePath, behindLastInt_wrap hpos (by omega) (by omega), hthrow]

/-- The call returns the root of the longest prefix that has one, and the rest of the URI, or the
empty path if no prefix has one. -/
def ResolvesLongest (locationToRoot : LocationToRoot) (uri : Bytes) : Prop :=
  ∃ fuel path m, runReplacePath fuel locationToRoot uri = some (some path, m) ∧
    ((∃ location rest, LongestRoot locationToRoot uri location rest ∧
        path = root locationToRoot location ++ rest) ∨
      ((∀ location t, uri = location ++ ('/' : Byte) :: t → root locationToRoot location = []) ∧
        path = []))

/-- A call that returns or throws: the map that its lookups leave. -/
def lookup (locationToRoot : LocationToRoot) (call : Nat × Bytes) : Option LocationToRoot :=
  (runReplacePath call.1 locationToRoot call.2).map Prod.snd

theorem resolvesLongest_of_short (huri : ('/' : Byte) ∈ uri) (h : SlashesBelow (2 ^ 31 - 1) uri) :
    ResolvesLongest locationToRoot uri := by
  have hsame : SameRoots locationToRoot locationToRoot := fun _ => rfl
  obtain ⟨fuel, m, hfuel⟩ := runReplacePath_of_short hsame h fun hno => absurd huri hno
  exact ⟨fuel, _, m, hfuel, replacePath_longest locationToRoot huri⟩

theorem not_resolvesLongest_of_long (hlen : uri.length < 2 ^ 32)
    (h : ¬ SlashesBelow (2 ^ 31 - 1) uri) :
    ¬ ResolvesLongest locationToRoot uri := by
  rintro ⟨fuel, path, m, hrun, -⟩
  rw [runReplacePath_of_long hlen h fuel] at hrun
  cases hrun

/-- **Static paths in every sequence of calls**: each call returns what it would return as the
first one. That is the root of the longest prefix that has one, and the rest of the URI, or the
empty path if no prefix has one: where the positions behind the slashes are an `int`, and below 4 GiB
only there. -/
theorem resolvesLongest_run (locationToRoot : LocationToRoot) (calls : List (Nat × Bytes)) :
    (∀ e ∈ Machine.trace lookup locationToRoot calls,
      (runReplacePath e.2.1 e.1 e.2.2).map Prod.fst =
        (runReplacePath e.2.1 locationToRoot e.2.2).map Prod.fst) ∧
    ∀ uri, ('/' : Byte) ∈ uri →
      (SlashesBelow (2 ^ 31 - 1) uri → ResolvesLongest locationToRoot uri) ∧
      (uri.length < 2 ^ 32 →
        (ResolvesLongest locationToRoot uri ↔ SlashesBelow (2 ^ 31 - 1) uri)) := by
  have hstart : SameRoots locationToRoot locationToRoot := fun _ => rfl
  constructor
  · have hstep : ∀ m call m', SameRoots locationToRoot m → lookup m call = some m' →
        SameRoots locationToRoot m' := by
      intro m call m' hm hcall
      obtain ⟨r, hr, rfl⟩ := Option.map_eq_some_iff.mp hcall
      exact (hm.runReplacePath call.1 call.2).2 r hr
    have hsame : ∀ e ∈ Machine.trace lookup locationToRoot calls, SameRoots locationToRoot e.1 :=
      Machine.forall_trace (fun _ => True) (fun m call m' hm _ hcall => hstep m call m' hm hcall) hstart
        fun _ _ => trivial
    exact fun e he => ((hsame e he).runReplacePath e.2.1 e.2.2).1
  · intro uri huri
    refine ⟨resolvesLongest_of_short huri, fun hlen => ⟨fun h => ?_, resolvesLongest_of_short huri⟩⟩
    by_contra hlong
    exact not_resolvesLongest_of_long hlen hlong h

/-- A URI whose last slash is out of range: `substr` throws. -/
theorem not_resolvesLongest_long :
    ¬ ∀ (locationToRoot : LocationToRoot) (uri : Bytes), ('/' : Byte) ∈ uri →
      ResolvesLongest locationToRoot uri := by
  intro hall
  obtain ⟨n, hn⟩ : ∃ n : Nat, n = 2 ^ 31 := ⟨_, rfl⟩
  let uri : Bytes := ('/' : Byte) :: List.replicate n ('a' : Byte) ++ [('/' : Byte)]
  have hlen : uri.length = n + 2 := by simp [uri]
  refine not_resolvesLongest_of_long (by omega) (fun hshort => ?_) (hall ∅ uri List.mem_cons_self)
  have hlast := hshort _ [] rfl
  rw [List.length_cons, List.length_replicate] at hlast
  omega

end StaticFileHandler

end LowKeyWebServer
