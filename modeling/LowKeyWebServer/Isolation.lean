import LowKeyWebServer.RequestParserCorrect
import LowKeyWebServer.Lib.Trace

/-!
# Isolation of the shared parser

All sessions share one global `RequestParser`. A string that ends in the middle of a
request leaves that parser in the middle too, since `good_request` and `bad_request`
reset the `Request` and not the parser.

* `Safe.completes`: every state of the automaton can still reach `good`, so
* `fresh_after_iff`: a fresh parser stays fresh exactly when the string is not a proper
  prefix of a request (`Truncated`), and
* `isolated_iff`: a run is isolated exactly when no such string is followed by another call.
-/

namespace LowKeyWebServer

namespace RequestParser

/-! ## Every state can be completed -/

section Completes

variable {r : UInt64} {raw path ver m u b : Bytes} {hs : List (Bytes × Bytes)}

/-- Some text leads to `good`. -/
def Completes (p : RequestParser) : Prop := ∃ w q, Accepts p w q []

theorem completes_next {p p' : RequestParser} {a : Byte}
    (h : nextCharHandler p a = some (.undefined, p')) (hp : Completes p') : Completes p := by
  obtain ⟨w, q, hw⟩ := hp
  exact ⟨a :: w, q, (accepts_undefined h).mpr hw⟩

theorem completes_body (hr : r ≠ 0) : Completes ⟨.body, r, raw, path, ver, m, u, hs, b⟩ :=
  ⟨List.replicate r.toNat 0, _, (accepts_body hr).mpr
    ⟨List.replicate r.toNat 0, (List.append_nil _).symm, List.length_replicate, rfl⟩⟩

/-- From the end of the head, the declared number of zero bytes completes the request. -/
theorem completes_newline3 : Completes ⟨.newline3, r, raw, path, ver, m, u, hs, b⟩ := by
  have hnext : nextCharHandler ⟨.newline3, r, raw, path, ver, m, u, hs, b⟩ '\n' = _ := next_newline3
  split at hnext
  · next n _ =>
    split at hnext
    · next hn => exact completes_next hnext (completes_body (UInt64.pos_iff_ne_zero.mp hn))
    · exact ⟨[_], _, (accepts_good hnext).mpr ⟨rfl, rfl⟩⟩
  · exact ⟨[_], _, (accepts_good hnext).mpr ⟨rfl, rfl⟩⟩

theorem completes_headerStart : Completes ⟨.headerStart, r, raw, path, ver, m, u, hs, b⟩ := by
  have hend : Completes ⟨.newline3, r, raw ++ str "\r", path, ver, m, u, hs, b⟩ := completes_newline3
  obtain ⟨w, q, hw⟩ := hend
  exact ⟨_, q, accepts_headerStart.mpr (Or.inl ⟨w, rfl, hw⟩)⟩

/-- A header completes at its colon, its blank, or its line end. -/
theorem completes_header : ∀ st ∈ [State.newline2, .headerValue, .headerLws,
    .spaceBeforeHeaderValue, .headerName],
    Completes ⟨st, r, raw, path, ver, m, u, hs, b⟩ := by
  have h₁ : ∀ raw, Completes ⟨.newline2, r, raw, path, ver, m, u, hs, b⟩ := fun raw =>
    completes_next (a := '\n') rfl completes_headerStart
  have h₂ : ∀ raw, Completes ⟨.headerValue, r, raw, path, ver, m, u, hs, b⟩ := fun raw =>
    completes_next (a := '\r') rfl (h₁ _)
  have h₃ : ∀ raw, Completes ⟨.headerLws, r, raw, path, ver, m, u, hs, b⟩ := fun raw =>
    completes_next (a := '\r') rfl (h₁ _)
  have h₄ : ∀ raw, Completes ⟨.spaceBeforeHeaderValue, r, raw, path, ver, m, u, hs, b⟩ := fun raw =>
    completes_next (a := ' ') rfl (h₂ _)
  have h₅ : ∀ raw, Completes ⟨.headerName, r, raw, path, ver, m, u, hs, b⟩ := fun raw =>
    completes_next (a := ':') rfl (h₄ _)
  simp only [List.forall_mem_cons]
  exact ⟨h₁ raw, h₂ raw, h₃ raw, h₄ raw, h₅ raw, fun _ h => absurd h List.not_mem_nil⟩

/-- The version completes with digits, a full stop and the line end. -/
theorem completes_version : ∀ st ∈ [State.newline1, .versionMinor, .versionMinorStart,
    .versionMajor, .versionMajorStart], Completes ⟨st, r, raw, path, ver, m, u, hs, b⟩ := by
  have h₁ : ∀ raw ver, Completes ⟨.newline1, r, raw, path, ver, m, u, hs, b⟩ := fun raw ver =>
    completes_next (a := '\n') rfl completes_headerStart
  have h₂ : ∀ raw ver, Completes ⟨.versionMinor, r, raw, path, ver, m, u, hs, b⟩ := fun raw ver =>
    completes_next (a := '\r') rfl (h₁ _ _)
  have h₃ : ∀ raw ver, Completes ⟨.versionMinorStart, r, raw, path, ver, m, u, hs, b⟩ :=
    fun raw ver => completes_next (a := '1') rfl (h₂ _ _)
  have h₄ : ∀ raw ver, Completes ⟨.versionMajor, r, raw, path, ver, m, u, hs, b⟩ := fun raw ver =>
    completes_next (a := '.') rfl (h₃ _ _)
  have h₅ : ∀ raw ver, Completes ⟨.versionMajorStart, r, raw, path, ver, m, u, hs, b⟩ :=
    fun raw ver => completes_next (a := '1') rfl (h₄ _ _)
  simp only [List.forall_mem_cons]
  exact ⟨h₁ raw ver, h₂ raw ver, h₃ raw ver, h₄ raw ver, h₅ raw ver,
    fun _ h => absurd h List.not_mem_nil⟩

/-- The five letters of the version complete with the letters after them. -/
theorem completes_letters : ∀ st ∈ [State.versionSlash, .versionP, .versionSecondT,
    .versionFirstT, .versionH], Completes ⟨st, r, raw, path, ver, m, u, hs, b⟩ := by
  have h₁ : ∀ raw ver, Completes ⟨.versionSlash, r, raw, path, ver, m, u, hs, b⟩ := fun raw ver =>
    completes_next (a := '/') rfl (completes_version .versionMajorStart (by simp))
  have h₂ : ∀ raw ver, Completes ⟨.versionP, r, raw, path, ver, m, u, hs, b⟩ := fun raw ver =>
    completes_next (a := 'P') rfl (h₁ _ _)
  have h₃ : ∀ raw ver, Completes ⟨.versionSecondT, r, raw, path, ver, m, u, hs, b⟩ :=
    fun raw ver => completes_next (a := 'T') rfl (h₂ _ _)
  have h₄ : ∀ raw ver, Completes ⟨.versionFirstT, r, raw, path, ver, m, u, hs, b⟩ := fun raw ver =>
    completes_next (a := 'T') rfl (h₃ _ _)
  have h₅ : ∀ raw ver, Completes ⟨.versionH, r, raw, path, ver, m, u, hs, b⟩ :=
    fun raw ver => completes_next (a := 'H') rfl (h₄ _ _)
  simp only [List.forall_mem_cons]
  exact ⟨h₁ raw ver, h₂ raw ver, h₃ raw ver, h₄ raw ver, h₅ raw ver,
    fun _ h => absurd h List.not_mem_nil⟩

/-- A URI completes at the blank after it, after one more letter when it is empty. -/
theorem completes_uri : Completes ⟨.uri, r, raw, path, ver, m, u, hs, b⟩ := by
  have hblank : ∀ raw u, u ≠ [] → Completes ⟨.uri, r, raw, path, ver, m, u, hs, b⟩ := by
    intro raw u hu
    obtain ⟨path', hpath⟩ := inferPath_ne_none path hu
    have hnext : nextCharHandler ⟨.uri, r, raw, path, ver, m, u, hs, b⟩ ' ' =
        some (.undefined, ⟨.versionH, r, raw ++ str " ", path', ver, m, u, hs, b⟩) := by
      simp [nextCharHandler, hpath, str]
    exact completes_next hnext (completes_letters .versionH (by simp))
  exact completes_next (a := 'a') rfl (hblank (raw ++ str "a") (u ++ str "a") (by simp [str]))

theorem completes_method : Completes ⟨.method, r, raw, path, ver, m, u, hs, b⟩ :=
  completes_next (a := ' ') rfl completes_uri

end Completes

/-- **A safe state can be completed**: there is always a text that leads to `good`. -/
theorem Safe.completes {read : Bytes} {p : RequestParser} (hp : Safe read p) : Completes p := by
  obtain ⟨st, r, raw, path, ver, m, u, hs, b⟩ := p
  cases st with
  | methodStart =>
    exact completes_next (a := 'G') rfl completes_method
  | method => exact completes_method
  | uri => exact completes_uri
  | versionH | versionFirstT | versionSecondT | versionP | versionSlash =>
    exact completes_letters _ (by simp)
  | versionMajorStart | versionMajor | versionMinorStart | versionMinor | newline1 =>
    exact completes_version _ (by simp)
  | headerStart => exact completes_headerStart
  | headerLws | headerName | spaceBeforeHeaderValue | headerValue | newline2 =>
    exact completes_header _ (by simp)
  | newline3 => exact completes_newline3
  | body => exact completes_body hp

/-! ## What an uninitialised `remaining` changes: nothing -/

/-- The two parsers differ at most in a `remaining` that is not in use. -/
def SameInput (p p' : RequestParser) : Prop :=
  p' = { p with remaining := p'.remaining } ∧ (p.state = .body → p' = p)

theorem sameInput_init (r r' : UInt64) : SameInput (init r) (init r') := ⟨rfl, fun h => nomatch h⟩

theorem SameInput.toRequest {p p' : RequestParser} (h : SameInput p p') :
    p'.toRequest = p.toRequest := by
  rw [h.1]
  rfl

theorem sameInput_of_ne {p p' : RequestParser} (h : p' = { p with remaining := p'.remaining })
    (hne : p.state ≠ .body) : SameInput p p' := ⟨h, fun hbody => absurd hbody hne⟩

/-- One byte keeps the two parsers together. -/
theorem SameInput.next {p p' : RequestParser} (h : SameInput p p') (a : Byte) :
    Option.Rel (fun x y => x.1 = y.1 ∧ SameInput x.2 y.2)
      (nextCharHandler p a) (nextCharHandler p' a) := by
  obtain ⟨h, hbody⟩ := h
  by_cases hst : p.state = .body
  · rw [hbody hst]
    rcases nextCharHandler p a with - | x
    · exact .none
    · exact .some ⟨rfl, rfl, fun _ => rfl⟩
  · generalize p'.remaining = r' at h
    subst h
    obtain ⟨st, r, raw, path, ver, m, u, hs, b⟩ := p
    cases st <;> simp only [nextCharHandler]
    case body => exact absurd rfl hst
    case newline3 =>
      split_ifs
      · have hlen : ∀ r, getHeaderValue ⟨.newline3, r, raw ++ [a], path, ver, m, u, hs, b⟩
            (str "Content-Length") = lengthValue hs := fun _ => rfl
        rw [hlen, hlen]
        rcases stoull (lengthValue hs) with - | n
        · exact .some ⟨rfl, sameInput_of_ne rfl (by simp)⟩
        · dsimp only
          split_ifs <;> exact .some ⟨rfl, rfl, fun _ => rfl⟩
      · exact .some ⟨rfl, sameInput_of_ne rfl (by simp)⟩
    case uri =>
      rcases inferPath path u with - | path'
      · split_ifs
        · exact .none
        · exact .some ⟨rfl, sameInput_of_ne rfl (by simp)⟩
        · exact .some ⟨rfl, sameInput_of_ne rfl (by simp)⟩
      · split_ifs <;> exact .some ⟨rfl, sameInput_of_ne rfl (by simp)⟩
    case headerLws | headerName | headerValue =>
      rcases modifyBack _ hs with - | hs'
      · split_ifs <;> first | exact .none | exact .some ⟨rfl, sameInput_of_ne rfl (by simp)⟩
      · split_ifs <;> exact .some ⟨rfl, sameInput_of_ne rfl (by simp)⟩
    all_goals
      split_ifs <;> exact .some ⟨rfl, sameInput_of_ne rfl (by simp)⟩

/-- What a caller of `parse` sees. -/
def ParseOutcome.seen (out : ParseOutcome) : Result × Bytes × Request :=
  (out.result, out.rest, out.request)

theorem SameInput.parse {p p' : RequestParser} (h : SameInput p p') (req : Request) (s : Bytes) :
    (p.parse req s).map ParseOutcome.seen = (p'.parse req s).map ParseOutcome.seen := by
  simp only [RequestParser.parse]
  induction s generalizing p p' with
  | nil => rfl
  | cons a s ih =>
    have hnext := h.next a
    rcases hp : nextCharHandler p a with - | ⟨r, q⟩
    · rcases hp' : nextCharHandler p' a with - | y
      · have hs : step p a = .done none := by rw [step, hp]
        have hs' : step p' a = .done none := by rw [step, hp']
        rw [Reader.run_done hs, Reader.run_done hs']
      · rw [hp, hp'] at hnext
        cases hnext
    · rcases hp' : nextCharHandler p' a with - | ⟨r', q'⟩
      · rw [hp, hp'] at hnext
        cases hnext
      · rw [hp, hp'] at hnext
        rcases hnext with ⟨hr, hsame⟩
        obtain rfl : r = r' := hr
        have hsame : SameInput q q' := hsame
        cases r with
        | undefined =>
          rw [Reader.run_more (step_undefined hp), Reader.run_more (step_undefined hp')]
          exact ih hsame
        | bad =>
          rw [Reader.run_done (step_bad hp), Reader.run_done (step_bad hp')]
          simp only [Option.map_some, ParseOutcome.seen, hsame.toRequest]
        | good =>
          rw [Reader.run_done (step_good hp), Reader.run_done (step_good hp')]
          simp only [Option.map_some, ParseOutcome.seen, hsame.toRequest]

/-! ## What one string does to a fresh parser -/

/-- A proper, non-empty prefix of a request. -/
def Truncated (x : Bytes) : Prop := x ≠ [] ∧ ∃ y ≠ [], ∃ t : RequestText, x ++ y = t.render

variable {p : RequestParser} {x : Bytes}

/-- An empty URI part is undefined behaviour: the last character of an empty path. -/
theorem parse_emptyUri (hp : p.Fresh) (req : Request) (hx : EmptyUri x) : p.parse req x = none := by
  obtain ⟨method, rest, hne, htok, rfl⟩ := hx
  have hblank : step ⟨.uri, p.remaining, method ++ str " ", [], [], method, [], [], []⟩ ' ' =
      .done none := by
    simp [step, nextCharHandler, inferPath_nil]
  have hrun : Reader.run step p (method ++ str "  " ++ rest) = .decided none rest := by
    have htext : method ++ str "  " ++ rest = method ++ str " " ++ ((' ' : Byte) :: rest) := by
      simp [str]
    rw [hp, htext, run_method p.remaining hne htok]
    exact Reader.run_done hblank rest
  rw [parse, hrun]

/-- A text with an empty URI part starts no request. -/
theorem not_truncated_of_emptyUri (hx : EmptyUri x) : ¬ Truncated x := by
  rintro ⟨-, y, -, t, ht⟩
  obtain ⟨q, hacc, -⟩ := accepts_complete 0 t []
  have happ : EmptyUri (x ++ y) := by
    obtain ⟨method, rest, hne, htok, rfl⟩ := hx
    exact ⟨method, rest ++ y, hne, htok, by rw [List.append_assoc]⟩
  have hnone := parse_emptyUri (fresh_init 0) .cleared happ
  rw [List.append_nil, ← ht] at hacc
  rw [parse_of_accepts hacc] at hnone
  cases hnone

/-- **When a fresh parser stays fresh**: unless the string is a proper prefix of a request. -/
theorem fresh_after_iff (hp : p.Fresh) {req : Request} (hx : ¬ EmptyUri x) {out : ParseOutcome}
    (h : p.parse req x = some out) : out.parser.Fresh ↔ ¬ Truncated x := by
  rcases (safe_fresh hp).run (w := x) hx with ⟨p', hrun, hsafe⟩ | ⟨res, p', v, hrun⟩
  · rw [List.nil_append] at hsafe
    rw [parse, hrun] at h
    cases h
    refine ⟨fun hfresh hx => hx.1 ?_, fun hx => ?_⟩
    · -- a fresh state is the start state, where nothing has been read
      have hfresh : p' = init p'.remaining := hfresh
      rw [hfresh] at hsafe
      exact hsafe.1
    · by_contra hne
      have hx0 : x ≠ [] := by
        rintro rfl
        cases hrun
        exact hne hp
      obtain ⟨y, q, hy⟩ := hsafe.completes
      have hacc : Accepts p (x ++ y) q [] := by
        rw [Accepts, Reader.run_append, hrun]
        exact hy
      rw [hp] at hacc
      obtain ⟨t, ht, -⟩ := accepts_sound hacc
      have hy0 : y ≠ [] := by
        rintro rfl
        exact not_accepts_nil hy
      exact hx ⟨hx0, y, hy0, t, by rw [ht, List.append_nil]⟩
  · rw [parse, hrun] at h
    cases h
    refine ⟨fun _ => ?_, fun _ => fresh_reset _⟩
    rintro ⟨-, y, hy, t, ht⟩
    obtain ⟨q, hacc, -⟩ := accepts_complete p.remaining t []
    rw [← ht, ← hp, List.append_nil, Accepts, Reader.run_append, hrun] at hacc
    -- the run was decided before `y` was read
    have hrest : v ++ y = [] := (Reader.Outcome.decided.inj hacc).2
    exact hy (List.append_eq_nil_iff.mp hrest).2

end RequestParser

/-! ## Sessions -/

section Sessions

variable {ι : Type}

/-- The global `req_parser`, and the `request_` of every session. -/
structure Sessions (ι : Type) : Type where
  /-- the parser shared by all sessions -/
  reqParser : RequestParser
  /-- `session::request_` -/
  request : ι → Request

/-- A call that parses a string, in the order of `session.cc`. -/
inductive Call (ι : Type) : Type where
  /-- `session::good_request(request)` -/
  | goodRequest (session : ι) (request : Bytes)
  /-- `session::bad_request(request)` -/
  | badRequest (session : ι) (request : Bytes)

/-- The session whose member function is called. -/
def Call.session : Call ι → ι
  | .goodRequest i _ => i
  | .badRequest i _ => i

/-- The string of the call. -/
def Call.text : Call ι → Bytes
  | .goodRequest _ x => x
  | .badRequest _ x => x

/-- The call starts from the fresh parser state, and its result, what it leaves unread
and the `Request` it leaves are those of a new `RequestParser` on this string alone. -/
def CallIsolated (ss : Sessions ι) (c : Call ι) : Prop :=
  ss.reqParser.Fresh ∧ ∀ r, (ss.reqParser.parse (ss.request c.session) c.text).map RequestParser.ParseOutcome.seen =
    ((RequestParser.init r).parse (ss.request c.session) c.text).map RequestParser.ParseOutcome.seen

/-- No string before an empty URI part is truncated and followed by another call. -/
def NoneTruncated (calls : List (Call ι)) : Prop :=
  ∀ pre c post, calls = pre ++ c :: post → post ≠ [] → (∀ d ∈ pre, ¬ EmptyUri d.text) →
    ¬ RequestParser.Truncated c.text

theorem noneTruncated_cons {c : Call ι} {cs : List (Call ι)} :
    NoneTruncated (c :: cs) ↔
      (cs ≠ [] → ¬ RequestParser.Truncated c.text) ∧ (¬ EmptyUri c.text → NoneTruncated cs) := by
  refine ⟨fun h => ⟨fun hcs => ?_, fun hc pre d post hcalls hpost hpre => ?_⟩, ?_⟩
  · exact h [] c cs rfl hcs fun _ hd => absurd hd List.not_mem_nil
  · exact h (c :: pre) d post (by rw [hcalls, List.cons_append]) hpost
      (List.forall_mem_cons.mpr ⟨hc, hpre⟩)
  · rintro ⟨hhead, htail⟩ pre d post hcalls hpost hpre
    rcases pre with - | ⟨c', pre⟩
    · obtain ⟨rfl, rfl⟩ := List.cons.inj hcalls
      exact hhead hpost
    · obtain ⟨rfl, hcs⟩ := List.cons.inj hcalls
      rw [List.forall_mem_cons] at hpre
      exact htail hpre.1 pre d post hcs hpost hpre.2

/-- A call on a fresh parser is isolated. -/
theorem callIsolated_of_fresh {ss : Sessions ι} (h : ss.reqParser.Fresh) (c : Call ι) :
    CallIsolated ss c := by
  refine ⟨h, fun r => ?_⟩
  have hsame : RequestParser.SameInput ss.reqParser (RequestParser.init r) := by
    rw [h]
    exact RequestParser.sameInput_init _ r
  exact hsame.parse _ _

variable [DecidableEq ι]

/-- What a call does to the parser and to the requests: `req_parser.Parse(request_, …)`,
and at its end `req_parser.reset(request_)`, which clears the `Request` only. -/
def Sessions.parseAndReset (ss : Sessions ι) (i : ι) (x : Bytes) : Option (Sessions ι) :=
  (ss.reqParser.parse (ss.request i) x).map fun out =>
    { reqParser := out.parser, request := Function.update ss.request i .cleared }

/-- One call. The two member functions treat the parser and `request_` alike. -/
def Sessions.call (ss : Sessions ι) : Call ι → Option (Sessions ι)
  | .goodRequest i x => ss.parseAndReset i x
  | .badRequest i x => ss.parseAndReset i x

theorem call_eq (ss : Sessions ι) (c : Call ι) : ss.call c = ss.parseAndReset c.session c.text := by
  cases c <;> rfl

/-- One call: where it is defined, it leaves a fresh parser unless its string is truncated. -/
theorem fresh_call_iff {ss ss' : Sessions ι} {c : Call ι} (hp : ss.reqParser.Fresh)
    (h : ss.call c = some ss') :
    ¬ EmptyUri c.text ∧ (ss'.reqParser.Fresh ↔ ¬ RequestParser.Truncated c.text) := by
  rw [call_eq, Sessions.parseAndReset] at h
  obtain ⟨out, hout, rfl⟩ := Option.map_eq_some_iff.mp h
  have hx : ¬ EmptyUri c.text := by
    intro hx
    rw [RequestParser.parse_emptyUri hp _ hx] at hout
    cases hout
  exact ⟨hx, RequestParser.fresh_after_iff hp hx hout⟩

theorem emptyUri_of_call {ss : Sessions ι} {c : Call ι} (hp : ss.reqParser.Fresh)
    (h : ss.call c = none) : EmptyUri c.text := by
  by_contra hx
  obtain ⟨out, hout⟩ := RequestParser.exists_parse hp (ss.request c.session) hx
  rw [call_eq, Sessions.parseAndReset, hout] at h
  cases h

/-- A run from a fresh parser, by induction on the calls. -/
theorem isolated_of_fresh_iff {ss : Sessions ι} (hp : ss.reqParser.Fresh) (calls : List (Call ι)) :
    (∀ e ∈ Machine.trace Sessions.call ss calls, CallIsolated e.1 e.2) ↔ NoneTruncated calls := by
  induction calls generalizing ss with
  | nil =>
    refine ⟨fun _ pre c post h => ?_, fun _ e he => absurd he List.not_mem_nil⟩
    cases pre <;> cases h
  | cons c cs ih =>
    have hhead := callIsolated_of_fresh hp c
    rw [Machine.forall_trace_cons, noneTruncated_cons]
    rcases hcall : ss.call c with - | ss'
    · -- undefined behaviour: the run ends here
      have hempty := emptyUri_of_call hp hcall
      exact ⟨fun _ => ⟨fun _ => RequestParser.not_truncated_of_emptyUri hempty,
        fun h => absurd hempty h⟩, fun _ => ⟨hhead, fun s' h => nomatch h⟩⟩
    · obtain ⟨hx, hfresh⟩ := fresh_call_iff hp hcall
      refine ⟨fun ⟨_, h⟩ => ?_, fun ⟨hlast, htail⟩ => ⟨hhead, fun t ht => ?_⟩⟩
      · have htrace := h ss' rfl
        rcases cs with - | ⟨d, ds⟩
        · refine ⟨fun h => absurd rfl h, fun _ => ?_⟩
          intro pre c post h
          cases pre <;> cases h
        · have hp' : ss'.reqParser.Fresh := (Machine.forall_trace_cons.mp htrace).1.1
          exact ⟨fun _ => hfresh.mp hp', fun _ => (ih hp').mp htrace⟩
      · obtain rfl := Option.some.inj ht
        rcases cs with - | ⟨d, ds⟩
        · exact fun e he => absurd he List.not_mem_nil
        · exact (ih (hfresh.mpr (hlast (List.cons_ne_nil _ _)))).mpr (htail hx)

/-- The state before any call: a new parser, and the requests as constructed. -/
def Sessions.initial (remaining : UInt64) (request : ι → Request) : Sessions ι :=
  ⟨.init remaining, request⟩

/-- **When the shared parser isolates the calls of a run**: exactly when no string that is
a proper prefix of a request is followed by another call. -/
theorem isolated_iff (remaining : UInt64) (request : ι → Request) (calls : List (Call ι)) :
    (∀ e ∈ Machine.trace Sessions.call (.initial remaining request) calls, CallIsolated e.1 e.2) ↔
      NoneTruncated calls :=
  isolated_of_fresh_iff (RequestParser.fresh_init remaining) calls

/-- A head whose body never came, then another session's request. -/
def truncatedPost : List (Call Bool) :=
  [.goodRequest false (str "POST /a HTTP/1.1\r\nContent-Length: 5\r\n\r\n"),
    .goodRequest true (str "GET /b HTTP/1.1\r\n\r\n")]

/-- The second call starts inside the body that the first one declared. -/
theorem truncatedPost_not_isolated :
    ¬ ∀ e ∈ Machine.trace Sessions.call (.initial 0 fun _ => .cleared) truncatedPost,
      CallIsolated e.1 e.2 := by
  intro h
  have hfresh : ((Machine.trace Sessions.call (.initial 0 fun _ => .cleared) truncatedPost).map
      fun e => decide e.1.reqParser.Fresh) = [true, false] := by decide +kernel
  have hall : ∀ b ∈ [true, false], b = true := by
    rw [← hfresh, List.forall_mem_map]
    exact fun e he => decide_eq_true (h e he).1
  exact absurd (hall false (by simp)) (by decide)

end Sessions

end LowKeyWebServer
