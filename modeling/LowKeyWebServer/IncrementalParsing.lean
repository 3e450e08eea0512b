import LowKeyWebServer.RequestStates

/-!
# Incremental parsing

A client's bytes reach `Parse` in pieces. `feedChunk` calls it on what remains of a piece until
the piece is consumed, `feed` does so for one piece after the other, and `feed_oneShot` says
that the cuts do not matter: both are the fold of the automaton's single steps.
-/

namespace LowKeyWebServer

namespace RequestParser

/-! ## Calling `Parse` repeatedly -/

/-- A call of `Parse` that returned `good` or `bad`. -/
structure Decision : Type where
  /-- good or bad -/
  result : Result
  /-- the `Request` argument afterwards -/
  request : Request
  /-- how much of the stream had been read -/
  offset : Nat

/-- A stream while it is fed to a parser. -/
structure Feeding : Type where
  /-- the parser, and how much it has read; none after undefined behaviour -/
  reached : Option (RequestParser × Nat)
  /-- the `Request` argument -/
  request : Request
  /-- the decisions, in order -/
  decisions : List Decision

/-- The outcome of a call that has read the stream up to `offset`. -/
def Feeding.after (f : Feeding) (offset : Nat) (out : ParseOutcome) : Feeding where
  reached := some (out.parser, offset)
  request := out.request
  decisions :=
    if out.result = .undefined then f.decisions
    else f.decisions ++ [⟨out.result, out.request, offset⟩]

variable {p p' : RequestParser} {req : Request} {a : Byte} {s : Bytes}

theorem parse_more (h : nextCharHandler p a = some (.undefined, p')) (req : Request) (s : Bytes) :
    p.parse req (a :: s) = p'.parse req s := by
  rw [parse, Reader.run_more (step_undefined h), parse]

theorem parse_done {r : Result} (hr : r ≠ .undefined) (h : nextCharHandler p a = some (r, p'))
    (req : Request) (s : Bytes) :
    p.parse req (a :: s) = some ⟨r, s, p'.reset, p'.toRequest⟩ := by
  have hstep : step p a = .done (some (r, p')) := by
    cases r with
    | undefined => exact absurd rfl hr
    | good => exact step_good h
    | bad => exact step_bad h
  rw [parse, Reader.run_done hstep]

theorem parse_none (h : nextCharHandler p a = none) (req : Request) (s : Bytes) :
    p.parse req (a :: s) = none := by
  have hstep : step p a = .done none := by rw [step, h]
  rw [parse, Reader.run_done hstep]

/-- An undecided call has read everything and written nothing. -/
theorem parse_undefined {out : ParseOutcome} (h : p.parse req s = some out)
    (hundefined : out.result = .undefined) : out.rest = [] ∧ out.request = req := by
  induction s generalizing p with
  | nil =>
    obtain rfl := Option.some.inj h
    exact ⟨rfl, rfl⟩
  | cons a s ih =>
    rcases hnext : nextCharHandler p a with - | ⟨r, p'⟩
    · rw [parse_none hnext] at h
      cases h
    · by_cases hr : r = .undefined
      · subst hr
        rw [parse_more hnext] at h
        exact ih h
      · rw [parse_done hr hnext] at h
        obtain rfl := Option.some.inj h
        exact absurd hundefined hr

/-- A call reads at least one byte of what is there. -/
theorem length_rest_lt {out : ParseOutcome} (hs : s ≠ []) (h : p.parse req s = some out) :
    out.rest.length < s.length := by
  rw [parse] at h
  split at h
  · obtain rfl := Option.some.inj h
    exact List.length_pos_of_ne_nil hs
  · cases h
  · next hrun =>
    obtain rfl := Option.some.inj h
    exact Reader.length_lt_of_decided hrun

/-- `Parse`, on what remains of a piece until it is consumed. -/
def feedChunk (f : Feeding) (chunk : Bytes) : Feeding :=
  if hchunk : chunk = [] then f
  else
    match f.reached with
    | none => f
    | some (p, offset) =>
      match h : p.parse f.request chunk with
      | none => { f with reached := none }
      | some out =>
        have : out.rest.length < chunk.length := length_rest_lt hchunk h
        feedChunk (f.after (offset + (chunk.length - out.rest.length)) out) out.rest
  termination_by chunk.length

/-- A stream in pieces, fed from its start. -/
def feed (p : RequestParser) (req : Request) (chunks : List Bytes) : Feeding :=
  chunks.foldl feedChunk ⟨some (p, 0), req, []⟩

/-! ## One byte after the other -/

variable {n : Nat} {ds : List Decision}

@[simp] theorem feedChunk_nil (f : Feeding) : feedChunk f [] = f := by
  rw [feedChunk, dif_pos rfl]

@[simp] theorem feedChunk_stuck (req : Request) (ds : List Decision) (s : Bytes) :
    feedChunk ⟨none, req, ds⟩ s = ⟨none, req, ds⟩ := by
  rw [feedChunk]
  split <;> rfl

theorem feedChunk_none (hs : s ≠ []) (h : p.parse req s = none) :
    feedChunk ⟨some (p, n), req, ds⟩ s = ⟨none, req, ds⟩ := by
  rw [feedChunk, dif_neg hs]
  dsimp only
  split
  · rfl
  · next hout =>
    rw [h] at hout
    cases hout

theorem feedChunk_some {out : ParseOutcome} (hs : s ≠ []) (h : p.parse req s = some out) :
    feedChunk ⟨some (p, n), req, ds⟩ s =
      feedChunk (Feeding.after ⟨some (p, n), req, ds⟩ (n + (s.length - out.rest.length)) out)
        out.rest := by
  rw [feedChunk, dif_neg hs]
  dsimp only
  split
  · next hout =>
    rw [h] at hout
    cases hout
  · next out' hout =>
    rw [h] at hout
    obtain rfl := Option.some.inj hout
    rfl

/-- A byte that decides nothing. -/
theorem feedChunk_more (h : nextCharHandler p a = some (.undefined, p')) (s : Bytes) :
    feedChunk ⟨some (p, n), req, ds⟩ (a :: s) = feedChunk ⟨some (p', n + 1), req, ds⟩ s := by
  have hparse := parse_more h req s
  rcases hout : p'.parse req s with - | out
  · rw [feedChunk_none (List.cons_ne_nil _ _) (hparse.trans hout)]
    have hs : s ≠ [] := by
      rintro rfl
      cases hout
    rw [feedChunk_none hs hout]
  · rw [feedChunk_some (List.cons_ne_nil _ _) (hparse.trans hout)]
    by_cases hs : s = []
    · subst hs
      obtain rfl := Option.some.inj hout
      simp [Feeding.after]
    · have hlt := length_rest_lt hs hout
      have hoffset : n + ((a :: s).length - out.rest.length) =
          n + 1 + (s.length - out.rest.length) := by
        rw [List.length_cons]
        omega
      rw [feedChunk_some hs hout, hoffset]
      rfl

/-- A byte that decides: the parser starts over behind it. -/
theorem feedChunk_done {r : Result} (hr : r ≠ .undefined)
    (h : nextCharHandler p a = some (r, p')) (s : Bytes) :
    feedChunk ⟨some (p, n), req, ds⟩ (a :: s) =
      feedChunk ⟨some (p'.reset, n + 1), p'.toRequest, ds ++ [⟨r, p'.toRequest, n + 1⟩]⟩ s := by
  have hlength : (a :: s).length - s.length = 1 := by
    rw [List.length_cons]
    omega
  rw [feedChunk_some (List.cons_ne_nil _ _) (parse_done hr h req s), Feeding.after, if_neg hr, hlength]

/-- **A piece is fed byte by byte.** -/
theorem feedChunk_cons (f : Feeding) (a : Byte) (s : Bytes) :
    feedChunk f (a :: s) = feedChunk (feedChunk f [a]) s := by
  obtain ⟨- | ⟨p, n⟩, req, ds⟩ := f
  · simp
  · rcases h : nextCharHandler p a with - | ⟨r, p'⟩
    · have hnone := parse_none h req
      rw [feedChunk_none (List.cons_ne_nil _ _) (hnone s),
        feedChunk_none (List.cons_ne_nil _ _) (hnone []), feedChunk_stuck]
    · by_cases hr : r = .undefined
      · subst hr
        rw [feedChunk_more h, feedChunk_more h, feedChunk_nil]
      · rw [feedChunk_done hr h, feedChunk_done hr h, feedChunk_nil]

theorem feedChunk_append (f : Feeding) (s t : Bytes) :
    feedChunk f (s ++ t) = feedChunk (feedChunk f s) t := by
  induction s generalizing f with
  | nil => rw [List.nil_append, feedChunk_nil]
  | cons a s ih => rw [List.cons_append, feedChunk_cons, ih, ← feedChunk_cons]

theorem foldl_feedChunk (f : Feeding) (chunks : List Bytes) :
    chunks.foldl feedChunk f = feedChunk f chunks.flatten := by
  induction chunks generalizing f with
  | nil => rw [List.foldl_nil, List.flatten_nil, feedChunk_nil]
  | cons chunk chunks ih => rw [List.foldl_cons, List.flatten_cons, ih, feedChunk_append]

/-- **Incremental parsing is one-shot parsing**: from any state of the parser, a stream leads
to the same decisions at the same offsets and to the same parser however it is cut, and a
call that returns `undefined` leaves the `Request` as it was. -/
theorem feed_oneShot (p : RequestParser) (req : Request) (chunks : List Bytes) :
    feed p req chunks = feed p req [chunks.flatten] ∧
      ∀ s out, p.parse req s = some out → out.result = .undefined → out.request = req := by
  refine ⟨?_, fun s out h hundefined => (parse_undefined h hundefined).2⟩
  rw [feed, feed, foldl_feedChunk, foldl_feedChunk, List.flatten_singleton]

end RequestParser

end LowKeyWebServer
