import LowKeyWebServer.Isolation
import LowKeyWebServer.Lib.Trace
import LowKeyWebServer.UrlDecoding

/-!
# The indices of the request parser

The parser with its indices (`nextCharAt`): the loop over the URI reads `uri_[i]` and takes a
substring behind it, the check of the path reads its last character, and the header states change
`headers_.back()`. Only one of them can be out of range, the last character of an empty path:
`safe_run` says in which runs of `Parse` that does not happen.
-/

namespace LowKeyWebServer

namespace RequestParser

/-! ## The path of a URI, by index -/

/-- The decoding loop of case `_uri` from the index `i`; the inner `none` is its early return.
The outer `none` is an index out of range, or what `substr` throws. -/
def decodeLoop (uri : Bytes) (i : Nat) (path : Bytes) : Option (Option Bytes) :=
  if i < uri.length then
    match uri[i]? with
    | none => none
    | some c =>
      if c = '%' then
        if i + 3 ≤ uri.length then
          match substr uri (i + 1) with
          | none => none
          | some rest =>
            match readHex (rest.take 2) with
            | some value => decodeLoop uri (i + 3) (path ++ [toChar value])
            | none => some none
        else some none
      else if c = '+' then decodeLoop uri (i + 1) (path ++ str " ")
      else decodeLoop uri (i + 1) (path ++ [c])
  else some (some path)
  termination_by uri.length - i

/-- `path_[path_.size() - 1]`: the size of an empty path is no index, and one less is none either. -/
def lastChar (path : Bytes) : Option Byte :=
  match path.length with
  | 0 => none
  | n + 1 => path[n]?

/-- `path_` once the blank after the URI is read. -/
def inferPathAt (path uri : Bytes) : Option Bytes :=
  match decodeLoop uri 0 path with
  | none => none
  | some none => some []
  | some (some path) =>
    if (find (str "..") path).isSome then some []
    else
      match lastChar path with
      | none => none
      | some c => if c = '/' then some (path ++ str "index.html") else some path

/-- `NextCharHandler` with its indices; `none` if one of them is out of range. -/
def nextCharAt (p : RequestParser) (input : Byte) : Option (Result × RequestParser) :=
  if p.state = .uri ∧ input = ' ' then
    (inferPathAt p.path p.uri).map fun path =>
      (.undefined, { p with rawRequest := p.rawRequest ++ [input], state := .versionH, path := path })
  else nextCharHandler p input

/-- **The loop by index** is the decoding of what is left of the URI; no index is out of range. -/
theorem decodeLoop_eq (uri path : Bytes) (i : Nat) :
    decodeLoop uri i path = some ((decodePath (uri.drop i)).map (path ++ ·)) := by
  have hdrop : ∀ (i : Nat) (c : Byte), uri[i]? = some c → uri.drop i = c :: uri.drop (i + 1) := by
    intro i c hc
    obtain ⟨hi, rfl⟩ := List.getElem?_eq_some_iff.mp hc
    exact List.drop_eq_getElem_cons hi
  -- the two characters that an escape needs
  have hescape : ∀ i : Nat, i + 3 ≤ uri.length →
      ∃ a b, uri.drop (i + 1) = a :: b :: uri.drop (i + 3) := by
    intro i hi
    exact ⟨uri[i + 1], uri[i + 2], by
      rw [List.drop_eq_getElem_cons (by omega), List.drop_eq_getElem_cons (by omega)]⟩
  have hsubstr : ∀ (i : Nat) (rest : Bytes), substr uri (i + 1) = some rest →
      rest = uri.drop (i + 1) := fun i rest h => (Option.ite_none_right_eq_some.mp h).2 |>
    Option.some.inj |>.symm
  fun_induction decodeLoop uri i path with
  | case1 i path hi hc => exact absurd (List.getElem?_eq_none_iff.mp hc) (Nat.not_le.mpr hi)
  | case2 i path hi hthree hrest hc =>
    rw [substr, if_pos (by omega)] at hrest
    cases hrest
  | case3 i path hi hthree rest hrest value hvalue hc ih =>
    obtain ⟨a, b, hab⟩ := hescape i hthree
    rw [hsubstr i rest hrest, hab] at hvalue
    have hvalue : readHex [a, b] = some value := hvalue
    rw [ih, hdrop i _ hc, hab]
    simp [decodePath, hvalue, Function.comp_def]
  | case4 i path hi hthree rest hrest hvalue hc =>
    obtain ⟨a, b, hab⟩ := hescape i hthree
    rw [hsubstr i rest hrest, hab] at hvalue
    have hvalue : readHex [a, b] = none := hvalue
    rw [hdrop i _ hc, hab]
    simp [decodePath, hvalue]
  | case5 i path hi hthree hc =>
    rw [hdrop i _ hc, decodePath_short (by rw [List.length_drop]; omega)]
    rfl
  | case6 i path hi hc hne ih =>
    rw [ih, hdrop i _ hc, decodePath_cons (by decide), Option.map_map, if_pos rfl]
    congr 2
    funext t
    simp [str]
  | case7 i path hi c hc hne hplus ih =>
    rw [ih, hdrop i _ hc, decodePath_cons hne, Option.map_map, if_neg hplus]
    congr 2
    funext t
    simp
  | case8 i path hi =>
    rw [List.drop_eq_nil_iff.mpr (Nat.not_lt.mp hi)]
    simp [decodePath]

theorem lastChar_eq (path : Bytes) : lastChar path = path.getLast? := by
  rw [lastChar, List.getLast?_eq_getElem?]
  rcases path with - | ⟨c, path⟩ <;> rfl

theorem inferPathAt_eq (path uri : Bytes) : inferPathAt path uri = inferPath path uri := by
  rw [inferPathAt, inferPath, decodeLoop_eq, List.drop_zero]
  rcases decodePath uri with - | decoded
  · rfl
  · have hlast := lastChar_eq (path ++ decoded)
    dsimp only [Option.map_some]
    generalize lastChar (path ++ decoded) = last at hlast ⊢
    subst hlast
    rfl

/-- The indices of a character that is handled are in range wherever it is handled at all. -/
theorem nextCharAt_eq (p : RequestParser) (input : Byte) :
    nextCharAt p input = nextCharHandler p input := by
  rw [nextCharAt]
  split
  · next h =>
    obtain ⟨st, r, raw, path, ver, m, u, hs, b⟩ := p
    obtain ⟨rfl, rfl⟩ := h
    rw [inferPathAt_eq]
    simp only [nextCharHandler, if_true]
  · rfl

/-! ## Calls of `Parse` -/

/-- Every index that a call of `Parse` evaluates on this string is in range. -/
def IndicesInRange (p : RequestParser) (s : Bytes) : Prop :=
  ∀ u a t p', s = u ++ a :: t → Reader.run step p u = .pending p' → nextCharAt p' a ≠ none

/-- A call of `Parse` on a string, with its `Request`: the parser after it. -/
def call (p : RequestParser) (x : Request × Bytes) : Option RequestParser :=
  (p.parse x.1 x.2).map ParseOutcome.parser

/-- The parser has read what is in `raw_request_` since it was fresh. -/
def Reading (p : RequestParser) : Prop := ∃ r, Reader.run step (init r) p.rawRequest = .pending p

variable {p p' : RequestParser} {s : Bytes}

theorem reading_init (r : UInt64) : Reading (init r) := ⟨r, rfl⟩

theorem rawRequest_next {a : Byte} {res : Result} (h : nextCharHandler p a = some (res, p')) :
    p'.rawRequest = p.rawRequest ++ [a] := by
  obtain ⟨st, r, raw, path, ver, m, u, hs, b⟩ := p
  cases st <;> simp only [nextCharHandler] at h
  all_goals
    repeat' split at h
    all_goals first
      | cases h; rfl
      | obtain ⟨_, -, heq⟩ := Option.map_eq_some_iff.mp h; cases heq; rfl

theorem rawRequest_pending (h : Reader.run step p s = .pending p') :
    p'.rawRequest = p.rawRequest ++ s := by
  have hstep : ∀ (read : Bytes) (q : RequestParser) (a : Byte) (q' : RequestParser),
      q.rawRequest = p.rawRequest ++ read → step q a = .more q' →
      q'.rawRequest = p.rawRequest ++ (read ++ [a]) := by
    intro read q a q' hq hmore
    rw [rawRequest_next (next_of_more hmore), hq, List.append_assoc]
  exact Reader.pending_rule hstep [] (List.append_nil _).symm h

/-- A call keeps the account of what has been read. -/
theorem Reading.call {x : Request × Bytes} (hp : Reading p) (h : p.call x = some p') :
    Reading p' := by
  obtain ⟨out, hout, rfl⟩ := Option.map_eq_some_iff.mp h
  by_cases hundefined : out.result = .undefined
  · have hrun := pending_of_parse hout hundefined
    obtain ⟨r, hr⟩ := hp
    refine ⟨r, ?_⟩
    rw [rawRequest_pending hrun, Reader.run_append, hr]
    exact hrun
  · have hfresh := fresh_of_parse hout hundefined
    rw [hfresh]
    exact reading_init _

/-- **In one call**: every index is in range unless the URI of the request is empty. -/
theorem Reading.indicesInRange_iff (hp : Reading p) :
    IndicesInRange p s ↔ ¬ EmptyUri (p.rawRequest ++ s) := by
  obtain ⟨r, hr⟩ := hp
  refine ⟨fun hrange hempty => ?_, fun hempty u a t p' hs hrun => ?_⟩
  · -- the blank behind an empty URI
    have hnone := parse_emptyUri (fresh_init r) .cleared hempty
    rw [parse, Reader.run_append, hr] at hnone
    split at hnone
    · cases hnone
    · next rest hrun =>
      obtain ⟨u, a, hs, p', hu, hstep⟩ := Reader.exists_of_decided hrun
      refine hrange u a rest p' hs hu ?_
      rw [nextCharAt_eq]
      rw [step] at hstep
      split at hstep
      · next h => exact h
      · cases hstep
      · cases hstep
    · cases hnone
  · subst hs
    have hsafe : Safe (p.rawRequest ++ u) p' := by
      have hsafe := ((safe_fresh (fresh_init r)).pending hr).pending hrun
      rwa [List.nil_append] at hsafe
    rw [nextCharAt_eq]
    refine hsafe.defined fun method hne htoken hread => hempty ⟨method, t, hne, htoken, ?_⟩
    rw [← hread]
    simp

/-- **Every run of `Parse`**: in all its calls, however the strings are cut, every index is in range
exactly if no request that is read has an empty URI. -/
theorem safe_run (r : UInt64) (calls : List (Request × Bytes)) :
    (∀ e ∈ Machine.trace call (init r) calls, IndicesInRange e.1 e.2.2) ↔
      ∀ e ∈ Machine.trace call (init r) calls, ¬ EmptyUri (e.1.rawRequest ++ e.2.2) := by
  have hreading : ∀ e ∈ Machine.trace call (init r) calls, Reading e.1 :=
    Machine.forall_trace (fun _ => True) (fun _ _ _ hp _ hcall => hp.call hcall) (reading_init r)
      fun _ _ => trivial
  exact forall₂_congr fun e he => (hreading e he).indicesInRange_iff

/-- Two blanks behind the method. -/
theorem not_safe_run : ¬ ∀ (r : UInt64) (calls : List (Request × Bytes)),
    ∀ e ∈ Machine.trace call (init r) calls, IndicesInRange e.1 e.2.2 := by
  intro h
  let calls : List (Request × Bytes) := [(.cleared, str "GET  HTTP/1.1\r\n")]
  have hempty : EmptyUri ([] ++ str "GET  HTTP/1.1\r\n") :=
    ⟨str "GET", str "HTTP/1.1\r\n", by decide, forall_mem_of_all (by decide), rfl⟩
  exact (reading_init 0).indicesInRange_iff.mp (h 0 calls _ List.mem_cons_self) hempty

end RequestParser

end LowKeyWebServer
