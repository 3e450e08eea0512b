import LowKeyWebServer.StaticFileHandler
import LowKeyWebServer.Lib.LexicalPath

/-!
# Which files the static handler opens

The path of a static file is the root of the location that matched, and the rest of the URI as
it was sent (`replacePath_eq`): the parser's sanitised `path_` is not looked at.

* `handleRequest_reads`: a request reads the file system at `openedPath` only;
* `contained_iff`: that path lies inside of the root exactly if the names of the root that the
  `..` segments of the rest leave are entered again.
-/

namespace LowKeyWebServer

open LexicalPath PrefixSearch

namespace StaticFileHandler

/-! ## The path of a static file -/

/-- A location that the URI may belong to, and the rest of the URI: it is split at a slash, and
where it has none it is both. -/
inductive Splits (uri : Bytes) : Bytes → Bytes → Prop where
  | slash {location rest : Bytes} : uri = location ++ ('/' : Byte) :: rest → Splits uri location rest
  | whole : ('/' : Byte) ∉ uri → Splits uri uri uri

/-- The root of a location; an empty one stands for none. -/
def root (locationToRoot : LocationToRoot) (location : Bytes) : Bytes :=
  locationToRoot.getD location []

/-- The location that matches: the longest one with a root. -/
def Matched (locationToRoot : LocationToRoot) (uri location rest : Bytes) : Prop :=
  Splits uri location rest ∧ root locationToRoot location ≠ [] ∧
    ∀ location' rest', Splits uri location' rest' → location.length < location'.length →
      root locationToRoot location' = []

/-- No location matches. -/
def Unmatched (locationToRoot : LocationToRoot) (uri : Bytes) : Prop :=
  ∀ location rest, Splits uri location rest → root locationToRoot location = []

variable {locationToRoot : LocationToRoot} {uri : Bytes}

/-- A prefix that ends where this starts is whole, or ends before a slash. -/
def AtSlash (w : Bytes) : Prop := w = [] ∨ ∃ t, w = ('/' : Byte) :: t

/-- The prefix has a root. -/
def hasRoot (locationToRoot : LocationToRoot) (u : Bytes) : Bool := root locationToRoot u != []

theorem hasRoot_iff {u : Bytes} : hasRoot locationToRoot u = true ↔ root locationToRoot u ≠ [] :=
  bne_iff_ne

theorem mem_cuts_iff {location u : Bytes} :
    u ∈ cuts ('/' : Byte) location ↔ ∃ w, location = u ++ w ∧ AtSlash w := mem_cuts

/-- **The loop of `replace_path`** takes the cuts of the location in turn. -/
theorem findRoot_eq (locationToRoot : LocationToRoot) (location subpath : Bytes) :
    findRoot locationToRoot location subpath =
      ((cuts ('/' : Byte) location).find? (hasRoot locationToRoot)).map fun u =>
        (root locationToRoot u, location.drop u.length ++ subpath) := by
  fun_induction findRoot locationToRoot location subpath with
  | case1 location subpath r hr =>
    rw [cuts, List.find?_cons_of_pos (hasRoot_iff.mpr hr), Option.map_some, List.drop_length]
    rfl
  | case2 location subpath r hr hnone =>
    rw [cuts, before_of_findLastOf_none hnone,
      List.find?_cons_of_neg fun h => hr (hasRoot_iff.mp h)]
    rfl
  | case3 location subpath r hr pos hpos hlt ih =>
    rw [cuts, before_of_findLastOf hpos, List.find?_cons_of_neg fun h => hr (hasRoot_iff.mp h), ih]
    refine Option.map_congr fun u hu => ?_
    -- what is cut off by now stands behind the prefix
    obtain ⟨w, htake, -⟩ := mem_cuts_iff.mp (List.mem_of_find?_eq_some hu)
    have hle : u.length ≤ (location.take pos).length := by
      rw [htake, List.length_append]
      omega
    have hdrop : (location.take pos ++ location.drop pos).drop u.length =
        (location.take pos).drop u.length ++ location.drop pos := List.drop_append_of_le_length hle
    rw [List.take_append_drop] at hdrop
    rw [hdrop, List.append_assoc]

theorem splitPath_slash (h : ('/' : Byte) ∈ uri) :
    uri = (splitPath uri).1 ++ ('/' : Byte) :: (splitPath uri).2 ∧ ('/' : Byte) ∉ (splitPath uri).2 := by
  rcases hlast : findLastOf '/' uri with - | i
  · exact absurd h (findLastOf_eq_none hlast)
  · rw [splitPath, hlast]
    exact findLastOf_eq_some hlast

theorem splitPath_of_not_mem (h : ('/' : Byte) ∉ uri) : splitPath uri = (uri, uri) := by
  rcases hlast : findLastOf '/' uri with - | i
  · rw [splitPath, hlast]
  · exact absurd ((findLastOf_eq_some hlast).1 ▸ List.mem_append_right _ List.mem_cons_self) h

/-- The loop starts at the last slash of the URI. -/
theorem before_eq_cuts (h : ('/' : Byte) ∈ uri) :
    before ('/' : Byte) uri = cuts ('/' : Byte) (splitPath uri).1 := by
  obtain ⟨hlast, hfile⟩ := splitPath_slash h
  exact (congrArg (before _) hlast).trans (before_last hfile)

/-- **The path of a static file**: the root of the location that matches, and the rest of the
URI as it is; it is empty if none does. -/
theorem replacePath_cases (locationToRoot : LocationToRoot) (uri : Bytes) :
    (∃ location rest, Matched locationToRoot uri location rest ∧
      replacePath locationToRoot uri = root locationToRoot location ++ ('/' : Byte) :: rest) ∨
    (Unmatched locationToRoot uri ∧ replacePath locationToRoot uri = []) := by
  by_cases huri : ('/' : Byte) ∈ uri
  · obtain ⟨hlast, -⟩ := splitPath_slash huri
    rw [replacePath]
    dsimp only
    rw [findRoot_eq, ← before_eq_cuts huri]
    rcases hfind : (before ('/' : Byte) uri).find? (hasRoot locationToRoot) with - | location
    · refine Or.inr ⟨fun location rest hsplits => ?_, rfl⟩
      cases hsplits with
      | slash h =>
        by_contra hroot
        exact List.find?_eq_none.mp hfind location (mem_before.mpr ⟨rest, h⟩) (hasRoot_iff.mpr hroot)
      | whole hno => exact absurd huri hno
    · obtain ⟨hmem, hroot, hlongest⟩ := find?_before_iff.mp hfind
      obtain ⟨rest, hsplit⟩ := mem_before.mp hmem
      refine Or.inl ⟨location, rest, ⟨.slash hsplit, hasRoot_iff.mp hroot, fun u rest' h hlt => ?_⟩, ?_⟩
      · cases h with
        | slash h =>
          by_contra hroot'
          have hle := hlongest u (mem_before.mpr ⟨rest', h⟩) (hasRoot_iff.mpr hroot')
          omega
        | whole hno => exact absurd huri hno
      · -- the rest is what the loop has cut off, and the file
        rw [before_eq_cuts huri] at hmem
        obtain ⟨w, hw, -⟩ := mem_cuts_iff.mp hmem
        have hrest : w ++ ('/' : Byte) :: (splitPath uri).2 = ('/' : Byte) :: rest := by
          refine List.append_cancel_left (?_ : location ++ _ = location ++ _)
          rw [← List.append_assoc, ← hw, ← hlast, hsplit]
        dsimp only [Option.map_some]
        rw [hw, List.drop_left, List.append_nil, ← hrest]
        simp [str]
  · -- no slash: the location is the whole URI
    rw [replacePath, splitPath_of_not_mem huri]
    dsimp only
    rw [findRoot_eq, cuts, before_of_not_mem huri]
    have hwhole : ∀ {location rest : Bytes}, Splits uri location rest → location = uri := by
      intro location rest h
      cases h with
      | slash h => exact absurd (h ▸ List.mem_append_right _ List.mem_cons_self) huri
      | whole => rfl
    by_cases hroot : root locationToRoot uri = []
    · refine Or.inr ⟨fun location rest h => hwhole h ▸ hroot, ?_⟩
      rw [List.find?_cons_of_neg fun h => hasRoot_iff.mp h hroot]
      rfl
    · refine Or.inl ⟨uri, uri, ⟨.whole huri, hroot, fun u rest h hlt => ?_⟩, ?_⟩
      · rw [hwhole h] at hlt
        exact absurd hlt (Nat.lt_irrefl _)
      · rw [List.find?_cons_of_pos (hasRoot_iff.mpr hroot)]
        simp [str]

/-- Only one location matches. -/
theorem Matched.unique {location rest location' rest' : Bytes}
    (h : Matched locationToRoot uri location rest) (h' : Matched locationToRoot uri location' rest') :
    location = location' ∧ rest = rest' := by
  obtain ⟨hsplits, hroot, hlongest⟩ := h
  obtain ⟨hsplits', hroot', hlongest'⟩ := h'
  have hlen : location.length = location'.length := by
    rcases Nat.lt_trichotomy location.length location'.length with hlt | heq | hlt
    · exact absurd (hlongest _ _ hsplits' hlt) hroot'
    · exact heq
    · exact absurd (hlongest' _ _ hsplits hlt) hroot
  have hno : ∀ {u t : Bytes}, ('/' : Byte) ∉ uri → uri ≠ u ++ ('/' : Byte) :: t := fun hno h =>
    hno (h ▸ List.mem_append_right _ List.mem_cons_self)
  cases hsplits with
  | slash huri =>
    cases hsplits' with
    | slash huri' =>
      obtain ⟨hlocation, hrest⟩ := List.append_inj (huri.symm.trans huri') hlen
      exact ⟨hlocation, (List.cons.inj hrest).2⟩
    | whole hslash => exact absurd huri (hno hslash)
  | whole hslash =>
    cases hsplits' with
    | slash huri' => exact absurd huri' (hno hslash)
    | whole => exact ⟨rfl, rfl⟩

theorem replacePath_eq {location rest : Bytes} (h : Matched locationToRoot uri location rest) :
    replacePath locationToRoot uri = root locationToRoot location ++ ('/' : Byte) :: rest := by
  rcases replacePath_cases locationToRoot uri with ⟨location', rest', h', hpath⟩ | ⟨hno, -⟩
  · obtain ⟨rfl, rfl⟩ := h.unique h'
    exact hpath
  · exact absurd (hno _ _ h.1) h.2.1

/-! ## The file that is opened -/

/-- The URI is of a type that is read from a file: text only at a location. -/
def OpensFile (locationToRoot : LocationToRoot) (uri : Bytes) : Prop :=
  configParser uri = 2 ∨ configParser uri = 3 ∨ configParser uri = 4 ∨
    (configParser uri = 1 ∧ ¬ Unmatched locationToRoot uri)

/-- The only path at which a request reads the file system. -/
def openedPath (locationToRoot : LocationToRoot) (fs : FileSystem) (uri : Bytes) : Bytes :=
  localPath fs (replacePath locationToRoot uri)

theorem replacePath_eq_nil : replacePath locationToRoot uri = [] ↔ Unmatched locationToRoot uri := by
  rcases replacePath_cases locationToRoot uri with ⟨location, rest, h, hpath⟩ | ⟨hno, hpath⟩
  · refine ⟨fun hnil => ?_, fun hno => absurd (hno _ _ h.1) h.2.1⟩
    rw [hpath] at hnil
    exact absurd (List.append_eq_nil_iff.mp hnil).2 (List.cons_ne_nil _ _)
  · exact ⟨fun _ => hno, fun _ => hpath⟩

/-- **A request reads the file system at one path only**, and only for a type that is read
from a file. -/
theorem handleRequest_reads {fs fs' : FileSystem} (hcwd : fs'.currentPath = fs.currentPath)
    (request : Request)
    (h : OpensFile locationToRoot request.uri →
      fs'.entry (openedPath locationToRoot fs request.uri) =
        fs.entry (openedPath locationToRoot fs request.uri)) :
    handleRequest locationToRoot fs' request = handleRequest locationToRoot fs request := by
  have hlocal : ∀ path, localPath fs' path = localPath fs path := fun path => by
    rw [localPath, hcwd]
    rfl
  rw [handleRequest, handleRequest]
  refine congrArg (Option.bind (getRequestLine request)) (funext fun _ => ?_)
  rw [answer, answer]
  dsimp only
  split
  · next hbinary =>
    have hopens : OpensFile locationToRoot request.uri := by
      obtain h | h | h := hbinary
      · exact Or.inl h
      · exact Or.inr (Or.inl h)
      · exact Or.inr (Or.inr (Or.inl h))
    rw [getBinaryContent, getBinaryContent, hlocal]
    dsimp only
    rw [← openedPath, h hopens]
  · split
    · rfl
    · split
      · rfl
      · next hpath =>
        rw [formResponse, formResponse]
        split
        · rfl
        · split
          · next htext =>
            have hopens : OpensFile locationToRoot request.uri :=
              Or.inr (Or.inr (Or.inr ⟨htext, fun hno => hpath (replacePath_eq_nil.mpr hno)⟩))
            rw [hlocal]
            dsimp only
            rw [← openedPath, h hopens]
          · rfl

/-! ## Containment -/

/-- A segment of a path. -/
def segmentMove (segment : Bytes) : Move Bytes :=
  if segment = [] ∨ segment = str "." then .stay
  else if segment = str ".." then .up
  else .down segment

/-- The segments of a path. -/
def moves (path : Bytes) : List (Move Bytes) := (segments ('/' : Byte) path).map segmentMove

/-- What a path names, lexically: the names that lead to it from the top. -/
def resolve (path : Bytes) : List Bytes := walk [] (moves path)

theorem resolve_append (s t : Bytes) :
    resolve (s ++ ('/' : Byte) :: t) = walk (resolve s) (moves t) := by
  rw [resolve, moves, segments_append, List.map_append, walk_append]
  rfl

theorem resolve_dropSlashes (s : Bytes) : resolve (dropSlashes s) = resolve s := by
  have hslash : ∀ s : Bytes, resolve (('/' : Byte) :: s) = resolve s := fun s =>
    resolve_append [] s
  induction s with
  | nil => rfl
  | cons c s ih =>
    rw [dropSlashes]
    split
    · next hc => rw [hc.1, hslash, ih]
    · rfl

/-- Every file that a request opens lies inside of the root of the location that matched, below
the current directory. -/
def Contained (locationToRoot : LocationToRoot) (fs : FileSystem) (uri : Bytes) : Prop :=
  OpensFile locationToRoot uri → ∃ location rest, Matched locationToRoot uri location rest ∧
    Below (resolve (fs.currentPath ++ root locationToRoot location))
      (resolve (openedPath locationToRoot fs uri))

/-- The rest of the URI goes up, if at all, and down again into the directories that it left,
and then at least one name further. -/
def StaysInside (dir : List Bytes) (rest : Bytes) : Prop :=
  let r := normalize (moves rest)
  Below (dir.drop (dir.length - r.ups)) r.downs

/-- **When a request opens a file inside of its root only**: if it opens none, or if a location
matches whose root the rest of the URI does not leave. -/
theorem contained_iff (locationToRoot : LocationToRoot) (fs : FileSystem) (uri : Bytes) :
    Contained locationToRoot fs uri ↔ (OpensFile locationToRoot uri →
      ∃ location rest, Matched locationToRoot uri location rest ∧
        StaysInside (resolve (fs.currentPath ++ root locationToRoot location)) rest) := by
  refine imp_congr_right fun _ => exists₂_congr fun location rest => and_congr_right fun h => ?_
  have hpath : resolve (openedPath locationToRoot fs uri) =
      (normalize (moves rest)).apply (resolve (fs.currentPath ++ root locationToRoot location)) := by
    rw [openedPath, localPath, resolve_dropSlashes, replacePath_eq h, ← List.append_assoc,
      resolve_append, walk_eq_apply]
  rw [hpath]
  exact below_apply_iff _ _

/-- An accepted URI that goes up leads out of the root. -/
theorem contained_dots : ¬ ∀ locationToRoot fs s out,
    (RequestParser.init 0).parse Request.cleared s = some out → out.result = .good →
    Contained locationToRoot fs out.request.uri := by
  intro hall
  have hparse : ((RequestParser.init 0).parse Request.cleared
      (str "GET /static/../secret.txt HTTP/1.1\r\n\r\n")).map
        (fun out => (out.result, out.request.uri)) =
      some (.good, str "/static/../secret.txt") := by decide +kernel
  obtain ⟨out, hout, heq⟩ := Option.map_eq_some_iff.mp hparse
  obtain ⟨hgood, huri⟩ := Prod.mk.inj heq
  have hcontained := hall ((∅ : LocationToRoot).insert (str "/static") (str "/files"))
    ⟨str "/srv", fun _ => none⟩ _ out hout hgood
  rw [huri] at hcontained
  have htype : configParser (str "/static/../secret.txt") = 1 := by decide
  have hpath : replacePath ((∅ : LocationToRoot).insert (str "/static") (str "/files"))
      (str "/static/../secret.txt") ≠ [] := by decide +kernel
  obtain ⟨location, rest, hmatched, hbelow⟩ := hcontained
    (Or.inr (Or.inr (Or.inr ⟨htype, fun hno => hpath (replacePath_eq_nil.mpr hno)⟩)))
  have hlocation : root ((∅ : LocationToRoot).insert (str "/static") (str "/files")) location =
      str "/files" := by
    have hne := hmatched.2.1
    rw [root, Std.TreeMap.getD_insert] at hne ⊢
    split at hne
    · next hkey => rw [if_pos hkey]
    · exact absurd (by simp) hne
  rw [hlocation] at hbelow
  obtain ⟨a, l, hbelow⟩ := hbelow
  have hlength := congrArg List.length hbelow
  have hfile : (resolve (openedPath ((∅ : LocationToRoot).insert (str "/static") (str "/files"))
      ⟨str "/srv", fun _ => none⟩ (str "/static/../secret.txt"))).length = 2 := by decide +kernel
  have hroot : (resolve (str "/srv" ++ str "/files")).length = 2 := by decide
  rw [hfile, List.length_append, hroot, List.length_cons] at hlength
  omega

end StaticFileHandler

end LowKeyWebServer
