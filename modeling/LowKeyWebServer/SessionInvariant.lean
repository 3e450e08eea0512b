import LowKeyWebServer.Session

/-!
# What a session holds between its reads

`handleReadCalls` is `session::handle_read` with its effects in the order in which the source
has them: what it does to `request_start` and `http_body`, and which calls it makes. Each read
leads to one call (`handleReadCalls_run`), and between the reads the session holds either
nothing or the reads of the request it is in (`handleReads_boundary`).
-/

namespace LowKeyWebServer

namespace Session

open Utils

/-! ## The calls of one read -/

/-- A session, and the calls it has made so far. -/
abbrev Calls : Type → Type := StateM (Session × List Action)

/-- `request_start = started;` -/
def setRequestStart (started : Bool) : Calls Unit :=
  modify fun s => ({ s.1 with requestStart := started }, s.2)

/-- `http_body += request;` -/
def appendBody (request : Bytes) : Calls Unit :=
  modify fun s => ({ s.1 with httpBody := s.1.httpBody ++ request }, s.2)

/-- `good_request(http_body);` -/
def callGoodRequest : Calls Unit :=
  modify fun s => (s.1.goodRequest.2, s.2 ++ [s.1.goodRequest.1])

/-- `bad_request(http_body);` -/
def callBadRequest : Calls Unit :=
  modify fun s => (s.1.badRequest.2, s.2 ++ [s.1.badRequest.1])

/-- `handle_write(error);` without an error: the next read. -/
def callHandleWrite : Calls Unit :=
  modify fun s => (s.1, s.2 ++ [.handleWrite])

/-- `session::long_string_handler`. -/
def longStringCalls (request : Bytes) (bytesTransferred : Nat) : Calls Bool := do
  let (s, _) ← get
  if !s.requestStart && !complete request bytesTransferred && checkRequest request then
    appendBody request
    callGoodRequest
    return true
  else
    return false

/-- `session::handle_read` without an error. -/
def handleReadCalls (request : Bytes) (bytesTransferred : Nat) : Calls Bool := do
  if ← longStringCalls request bytesTransferred then
    return true
  else
    let (s, _) ← get
    -- the request is complete
    if s.requestStart && complete request bytesTransferred then
      setRequestStart false
      appendBody request
      callGoodRequest
      return true
    else if s.requestStart || checkRequestLine request then
      setRequestStart true
      appendBody request
      if checkRequestLine request then
        if (checkMethod (methodName request)).isNone then
          setRequestStart false
          callBadRequest
        else
          callHandleWrite
      else if !checkHeader request then
        setRequestStart false
        callBadRequest
      else
        callHandleWrite
    else
      -- multiple consecutive CRLF input
      if !s.requestStart && filterCRLF request == 0 then
        callHandleWrite
      else
        appendBody request
        callBadRequest
    return true

theorem longStringCalls_of_none {s : Session} {request : Bytes} {n : Nat}
    (h : s.longStringHandler request n = none) (calls : List Action) :
    (longStringCalls request n).run (s, calls) = (false, (s, calls)) := by
  rw [longStringHandler] at h
  rw [longStringCalls]
  split at h
  · cases h
  · next hc =>
    simp only [StateT.run_bind, StateT.run_get, pure_bind, if_neg hc]
    rfl

theorem longStringCalls_of_some {s : Session} {request : Bytes} {n : Nat} {a : Action}
    {s' : Session} (h : s.longStringHandler request n = some (a, s')) (calls : List Action) :
    (longStringCalls request n).run (s, calls) = (true, (s', calls ++ [a])) := by
  rw [longStringHandler] at h
  rw [longStringCalls]
  split at h
  · next hc =>
    simp only [StateT.run_bind, StateT.run_get, pure_bind, if_pos hc]
    cases h
    rfl
  · cases h

/-- The rest of `handleReadCalls`, after `long_string_handler` has returned `false`. -/
theorem handleReadCalls_of_none {s : Session} {request : Bytes} {n : Nat}
    (h : s.longStringHandler request n = none) (calls : List Action) :
    (handleReadCalls request n).run (s, calls) =
      (true, (s.handleRead request n).2, calls ++ [(s.handleRead request n).1]) := by
  rw [handleReadCalls, handleRead, h, StateT.run_bind, longStringCalls_of_none h]
  obtain ⟨start, body⟩ := s
  cases start with
  | true =>
    rcases complete request n with - | -
    · rcases checkRequestLine request with - | -
      · rcases checkHeader request with - | - <;> rfl
      · rcases (checkMethod (methodName request)).isNone with - | - <;> rfl
    · rfl
  | false =>
    rcases checkRequestLine request with - | -
    · rcases filterCRLF request == 0 with - | - <;> rfl
    · rcases (checkMethod (methodName request)).isNone with - | - <;> rfl

/-- **A read makes one call**, and leaves the session that `handleRead` says. -/
theorem handleReadCalls_run (s : Session) (calls : List Action) (request : Bytes) (n : Nat) :
    (handleReadCalls request n).run (s, calls) =
      (true, (s.handleRead request n).2, calls ++ [(s.handleRead request n).1]) := by
  rcases hlong : s.longStringHandler request n with - | ⟨a, s'⟩
  · exact handleReadCalls_of_none hlong calls
  · rw [handleReadCalls, handleRead, hlong, StateT.run_bind, longStringCalls_of_some hlong]
    rfl

/-! ## Runs of reads -/

/-- What a read hands to `handle_read`: `std::string(data_)` and `bytes_transferred`. -/
structure Read : Type where
  request : Bytes
  bytesTransferred : Nat

/-- The reads of a session, one after the other. -/
def handleReads : List Read → Calls Unit
  | [] => pure ()
  | r :: rs => do
    let _ ← handleReadCalls r.request r.bytesTransferred
    handleReads rs

/-- The session after a read. -/
def afterRead (s : Session) (r : Read) : Session :=
  (s.handleRead r.request r.bytesTransferred).2

/-- A new session after some reads. -/
def afterReads (reads : List Read) : Session := reads.foldl afterRead new

theorem afterReads_concat (reads : List Read) (r : Read) :
    afterReads (reads ++ [r]) = (afterReads reads).afterRead r := by
  rw [afterReads, List.foldl_append]
  rfl

/-- As many calls as reads. -/
theorem handleReads_run (reads : List Read) (s : Session) (calls : List Action) :
    ∃ more, more.length = reads.length ∧
      (handleReads reads).run (s, calls) = ((), reads.foldl afterRead s, calls ++ more) := by
  induction reads generalizing s calls with
  | nil => exact ⟨[], rfl, by rw [List.append_nil]; rfl⟩
  | cons r rs ih =>
    obtain ⟨more, hlen, hrun⟩ :=
      ih (s.afterRead r) (calls ++ [(s.handleRead r.request r.bytesTransferred).1])
    refine ⟨(s.handleRead r.request r.bytesTransferred).1 :: more, by simp [hlen], ?_⟩
    rw [handleReads, StateT.run_bind, handleReadCalls_run]
    refine hrun.trans ?_
    rw [List.append_assoc]
    rfl

/-- A read outside a request ends there, or opens one. -/
theorem afterRead_new (r : Read) :
    new.afterRead r = new ∨ (OpensRequest r.request ∧ new.afterRead r = ⟨true, r.request⟩) := by
  rw [afterRead, handleRead]
  rcases hlong : new.longStringHandler r.request r.bytesTransferred with - | ⟨a, s'⟩
  · by_cases hline : checkRequestLine r.request = true
    · rcases hm : checkMethod (methodName r.request) with - | m
      · left
        simp [new, hline, badRequest]
      · right
        refine ⟨⟨hline, by rw [hm]; rfl⟩, ?_⟩
        simp [new, hline]
    · left
      by_cases hcr : filterCRLF r.request = 0
      · simp [new, hline, hcr]
      · simp [new, hline, hcr, badRequest]
  · left
    rw [longStringHandler] at hlong
    split at hlong
    · cases hlong
      rfl
    · cases hlong

/-- A read inside a request ends it, or is a request line or a header of it. -/
theorem afterRead_started (b : Bytes) (r : Read) :
    afterRead ⟨true, b⟩ r = new ∨
    ((checkRequestLine r.request = true ∨ checkHeader r.request = true) ∧
      afterRead ⟨true, b⟩ r = ⟨true, b ++ r.request⟩) := by
  have hlong : longStringHandler ⟨true, b⟩ r.request r.bytesTransferred = none := by
    rw [longStringHandler, Bool.not_true, Bool.false_and, Bool.false_and]
    rfl
  rw [afterRead, handleRead, hlong]
  by_cases hc : complete r.request r.bytesTransferred = true
  · left
    simp [hc, goodRequest, new]
  · by_cases hline : checkRequestLine r.request = true
    · rcases hm : checkMethod (methodName r.request) with - | m
      · left
        simp [hc, hline, badRequest, new]
      · right
        exact ⟨Or.inl hline, by simp [hc, hline]⟩
    · by_cases hh : checkHeader r.request = true
      · right
        exact ⟨Or.inr hh, by simp [hc, hline, hh]⟩
      · left
        simp [hc, hline, hh, badRequest, new]

/-- The reads since `first`, which found no request and left `request_start` on. -/
structure Since (before : List Read) (first : Read) (later : List Read) : Prop where
  idle : (afterReads before).requestStart = false
  started : ∀ k, (afterReads (before ++ first :: later.take k)).requestStart = true

/-- **The invariant** of a session after `reads`. -/
def Boundary (reads : List Read) (s : Session) : Prop :=
  (s.requestStart = false ∧ s.httpBody = []) ∨
  (s.requestStart = true ∧ ∃ before first later, reads = before ++ first :: later ∧
    Since before first later ∧
    s.httpBody = ((first :: later).map Read.request).flatten ∧
    OpensRequest first.request ∧
    ∀ r ∈ later, checkRequestLine r.request = true ∨ checkHeader r.request = true)

theorem boundary_concat {reads : List Read} (h : Boundary reads (afterReads reads)) (r : Read) :
    Boundary (reads ++ [r]) (afterReads (reads ++ [r])) := by
  rcases h with ⟨hstart, hbody⟩ | ⟨hstart, before, first, later, rfl, hsince, hbody, hopen, hlater⟩
  · have hnew : afterReads reads = new := by
      rw [← show Session.mk false [] = new from rfl, ← hstart, ← hbody]
    rcases afterRead_new r with hr | ⟨hopen, hr⟩
    · left
      rw [afterReads_concat, hnew, hr]
      exact ⟨rfl, rfl⟩
    · right
      rw [afterReads_concat, hnew, hr]
      refine ⟨rfl, reads, r, [], rfl, ⟨hstart, fun k => ?_⟩, (List.append_nil _).symm, hopen, ?_⟩
      · rw [List.take_nil, afterReads_concat, hnew, hr]
      · intro r' hr'
        cases hr'
  · have hs : afterReads (before ++ first :: later) =
        ⟨true, ((first :: later).map Read.request).flatten⟩ := by
      rw [← hbody, ← hstart]
    rcases afterRead_started ((first :: later).map Read.request).flatten r with hr | ⟨hmore, hr⟩
    · left
      rw [afterReads_concat, hs, hr]
      exact ⟨rfl, rfl⟩
    · right
      have happ : before ++ first :: later ++ [r] = before ++ first :: (later ++ [r]) := by
        rw [List.append_assoc, List.cons_append]
      have hnext : afterReads (before ++ first :: (later ++ [r])) =
          ⟨true, ((first :: (later ++ [r])).map Read.request).flatten⟩ := by
        rw [← happ, afterReads_concat, hs, hr]
        simp
      rw [happ, hnext]
      refine ⟨rfl, before, first, later ++ [r], rfl, ⟨hsince.idle, fun k => ?_⟩, rfl, hopen, ?_⟩
      · by_cases hk : k ≤ later.length
        · rw [List.take_append_of_le_length hk]
          exact hsince.started k
        · rw [List.take_of_length_le (by simp; omega), hnext]
      · intro r' hr'
        rcases List.mem_append.mp hr' with hr' | hr'
        · exact hlater r' hr'
        · rw [List.mem_singleton.mp hr']
          exact hmore

theorem boundary_afterReads (reads : List Read) : Boundary reads (afterReads reads) := by
  induction reads using List.reverseRecOn with
  | nil => exact Or.inl ⟨rfl, rfl⟩
  | append_singleton reads r ih => exact boundary_concat ih r

/-- **Between two reads** the session keeps its invariant, and the next read makes one call. -/
theorem handleReads_boundary (reads : List Read) :
    ∃ s calls, (handleReads reads).run (new, []) = ((), s, calls) ∧ Boundary reads s ∧
      calls.length = reads.length ∧
      ∀ r : Read, ∃ a s', (handleReadCalls r.request r.bytesTransferred).run (s, calls) =
        (true, s', calls ++ [a]) := by
  obtain ⟨calls, hlen, hrun⟩ := handleReads_run reads new []
  refine ⟨afterReads reads, calls, hrun, boundary_afterReads reads, hlen, fun r => ?_⟩
  exact ⟨_, _, handleReadCalls_run (afterReads reads) calls r.request r.bytesTransferred⟩

end Session

end LowKeyWebServer
