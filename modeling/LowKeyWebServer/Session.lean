import LowKeyWebServer.Utils

/-!
# A session's reads

`session::handle_read` and `session::long_string_handler`: how one client's reads become
calls of `good_request` and `bad_request`. A read's string is an argument here; in the
source it is `std::string(data_)`, the buffer up to its first NUL.
-/

namespace LowKeyWebServer

/-- The framing state of a `session`. -/
structure Session : Type where
  /-- mark the start of the request -/
  requestStart : Bool
  /-- store one http request -/
  httpBody : Bytes
  deriving DecidableEq

namespace Session

/-- What a read leads to. -/
inductive Action : Type where
  /-- `good_request(request)` -/
  | goodRequest (request : Bytes)
  /-- `bad_request(request)` -/
  | badRequest (request : Bytes)
  /-- `handle_write(error)`: just the next read -/
  | handleWrite
  deriving DecidableEq

/-- The constructor. -/
def new : Session := ⟨false, []⟩

/-- `good_request(http_body)`, which resets `http_body`. -/
def goodRequest (s : Session) : Action × Session :=
  (.goodRequest s.httpBody, { s with httpBody := [] })

/-- `bad_request(http_body)`, which resets `http_body`. -/
def badRequest (s : Session) : Action × Session :=
  (.badRequest s.httpBody, { s with httpBody := [] })

open Utils

/-- `session::long_string_handler`: a request in one long string; `none` is `false`. -/
def longStringHandler (s : Session) (request : Bytes) (bytesTransferred : Nat) :
    Option (Action × Session) :=
  if !s.requestStart && !complete request bytesTransferred && checkRequest request then
    some { s with httpBody := s.httpBody ++ request }.goodRequest
  else none

/-- `session::handle_read` without an error. -/
def handleRead (s : Session) (request : Bytes) (bytesTransferred : Nat) : Action × Session :=
  match s.longStringHandler request bytesTransferred with
  | some out => out
  | none =>
    if s.requestStart && complete request bytesTransferred then
      goodRequest { requestStart := false, httpBody := s.httpBody ++ request }
    else if s.requestStart || checkRequestLine request then
      let s : Session := { requestStart := true, httpBody := s.httpBody ++ request }
      if checkRequestLine request then
        if (checkMethod (methodName request)).isNone then
          badRequest { s with requestStart := false }
        else (.handleWrite, s)
      else if !checkHeader request then badRequest { s with requestStart := false }
      else (.handleWrite, s)
    -- multiple consecutive CRLF input
    else if !s.requestStart && filterCRLF request == 0 then (.handleWrite, s)
    else badRequest { s with httpBody := s.httpBody ++ request }

/-- The calls that a sequence of reads leads to. -/
def calls : Session → List Bytes → List Action
  | _, [] => []
  | s, x :: xs =>
    match s.handleRead x x.length with
    | (.handleWrite, s') => calls s' xs
    | (a, s') => a :: calls s' xs

/-! ## One read -/

/-- The read is a request line of a known method. -/
def OpensRequest (x : Bytes) : Prop :=
  checkRequestLine x = true ∧ (checkMethod (methodName x)).isSome = true

/-- The read is taken as header lines of a request that has been started. -/
def ContinuesRequest (x : Bytes) : Prop :=
  x ≠ crlf ∧ if checkRequestLine x = true then (checkMethod (methodName x)).isSome = true
    else checkHeader x = true

instance : DecidablePred OpensRequest := fun x => by unfold OpensRequest; infer_instance
instance : DecidablePred ContinuesRequest := fun x => by unfold ContinuesRequest; infer_instance

theorem complete_length (x : Bytes) : complete x x.length = decide (x = crlf) := by
  by_cases hx : x = crlf
  · subst hx
    rfl
  · rw [complete, beq_false_of_ne hx, Bool.false_and, decide_eq_false hx]

theorem checkRequest_crlf : checkRequest crlf = false := by decide

/-- A read before any request: a whole request, the start of one, line ends, or garbage. -/
theorem handleRead_new (x : Bytes) :
    (checkRequest x = true ∧ new.handleRead x x.length = (.goodRequest x, new)) ∨
    (checkRequest x = false ∧ OpensRequest x ∧
      new.handleRead x x.length = (.handleWrite, ⟨true, x⟩)) ∨
    (checkRequest x = false ∧ ¬ OpensRequest x ∧ new.handleRead x x.length = (.handleWrite, new)) ∨
    (checkRequest x = false ∧ ¬ OpensRequest x ∧
      new.handleRead x x.length = (.badRequest x, new)) := by
  rcases hreq : checkRequest x with - | -
  · have hlong : new.longStringHandler x x.length = none := by
      rw [longStringHandler, hreq, Bool.and_false]
      rfl
    rw [handleRead, hlong]
    by_cases hline : checkRequestLine x = true
    · by_cases hm : (checkMethod (methodName x)).isSome = true
      · have hnone : (checkMethod (methodName x)).isNone = false := by
          rw [Option.isNone_eq_false_iff, hm]
        refine Or.inr (Or.inl ⟨rfl, ⟨hline, hm⟩, ?_⟩)
        simp [new, hline, hnone]
      · have hnone : (checkMethod (methodName x)).isNone = true := by
          rw [Option.isNone_iff_eq_none]
          exact Option.not_isSome_iff_eq_none.mp hm
        refine Or.inr (Or.inr (Or.inr ⟨rfl, fun h => hm h.2, ?_⟩))
        simp [new, hline, hnone, badRequest]
    · by_cases hcr : filterCRLF x = 0
      · refine Or.inr (Or.inr (Or.inl ⟨rfl, fun h => hline h.1, ?_⟩))
        simp [new, hline, hcr]
      · refine Or.inr (Or.inr (Or.inr ⟨rfl, fun h => hline h.1, ?_⟩))
        simp [new, hline, hcr, badRequest]
  · have hx : x ≠ crlf := by
      rintro rfl
      rw [checkRequest_crlf] at hreq
      cases hreq
    refine Or.inl ⟨rfl, ?_⟩
    have hlong : new.longStringHandler x x.length = some (.goodRequest x, new) := by
      rw [longStringHandler, complete_length, hreq, decide_eq_false hx]
      rfl
    rw [handleRead, hlong]

/-- A read inside a request: its end, more of its head, or an error. -/
theorem handleRead_started (b x : Bytes) :
    (x = crlf ∧ handleRead ⟨true, b⟩ x x.length = (.goodRequest (b ++ x), new)) ∨
    (ContinuesRequest x ∧ handleRead ⟨true, b⟩ x x.length = (.handleWrite, ⟨true, b ++ x⟩)) ∨
    (x ≠ crlf ∧ ¬ ContinuesRequest x ∧
      handleRead ⟨true, b⟩ x x.length = (.badRequest (b ++ x), new)) := by
  have hlong : longStringHandler ⟨true, b⟩ x x.length = none := by
    rw [longStringHandler, Bool.not_true, Bool.false_and, Bool.false_and]
    rfl
  rw [handleRead, hlong]
  by_cases hx : x = crlf
  · refine Or.inl ⟨hx, ?_⟩
    simp [complete_length, hx, goodRequest, new]
  · by_cases hline : checkRequestLine x = true
    · rcases hm : checkMethod (methodName x) with - | m
      · refine Or.inr (Or.inr ⟨hx, ?_, ?_⟩)
        · simp [ContinuesRequest, hline, hm]
        · simp [complete_length, hx, hline, badRequest, new]
      · refine Or.inr (Or.inl ⟨?_, ?_⟩)
        · simp [ContinuesRequest, hx, hline, hm]
        · simp [complete_length, hx, hline]
    · by_cases hh : checkHeader x = true
      · refine Or.inr (Or.inl ⟨?_, ?_⟩)
        · simp [ContinuesRequest, hx, hline, hh]
        · simp [complete_length, hx, hline, hh]
      · refine Or.inr (Or.inr ⟨hx, ?_, ?_⟩)
        · simp [ContinuesRequest, hline, hh]
        · simp [complete_length, hx, hline, hh, badRequest, new]

end Session

end LowKeyWebServer
