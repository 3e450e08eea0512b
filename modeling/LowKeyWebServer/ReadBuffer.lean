import LowKeyWebServer.Session
import LowKeyWebServer.Lib.Trace

/-!
# The read buffer of a session

`data_`: each read is written to its front, and `handle_read` takes the string up to its first
NUL. `reads_exactly_run` is the condition under which that string is what was read, in a run
of reads; the invariant is that the buffer is all NUL once a branch has cleared it.
-/

namespace LowKeyWebServer

/-! ## The buffer -/

/-- `max_length`. -/
def maxLength : Nat := 1024

/-- `char data_[max_length]`. -/
structure Buffer : Type where
  /-- the bytes -/
  data : Bytes
  /-- there are `max_length` of them -/
  length_eq : data.length = maxLength

/-- What one read delivers: at least one byte, and no more than the buffer takes. -/
structure Chunk : Type where
  /-- the bytes -/
  bytes : Bytes
  /-- a read that is no error delivers something -/
  pos : 0 < bytes.length
  /-- `buffer(data_, max_length)` -/
  le : bytes.length ≤ maxLength

namespace Buffer

/-- `memset(data_, '\0', max_length)`. -/
def cleared : Buffer := ⟨List.replicate maxLength 0, List.length_replicate⟩

/-- A read into the front of the buffer. -/
def read (b : Buffer) (x : Chunk) : Buffer where
  data := x.bytes ++ b.data.drop x.bytes.length
  length_eq := by
    rw [List.length_append, List.length_drop, b.length_eq]
    exact Nat.add_sub_of_le x.le

/-- `std::string(data_)`: up to the first NUL; `none` when the scan leaves the buffer. -/
def cString (b : Buffer) : Option Bytes :=
  if 0 ∈ b.data then some (b.data.takeWhile fun c => c != 0) else none

/-- The string up to the first NUL is a given one. -/
theorem takeWhile_eq_iff {x rest : Bytes} (hmem : 0 ∈ x ++ rest) :
    (x ++ rest).takeWhile (fun c : Byte => c != 0) = x ↔ 0 ∉ x ∧ rest.head? = some 0 := by
  induction x with
  | nil =>
    rcases rest with - | ⟨c, rest⟩
    · exact absurd hmem List.not_mem_nil
    · by_cases hc : c = 0
      · simp [hc]
      · simp [hc]
  | cons c x ih =>
    by_cases hc : c = 0
    · simp [hc]
    · have hmem' : 0 ∈ x ++ rest := (List.mem_cons.mp hmem).resolve_left fun h => hc h.symm
      simp [hc, ih hmem', Ne.symm hc]

/-- **One read** is the string exactly if it has no NUL and one stands behind it. -/
theorem cString_read_iff (b : Buffer) (x : Chunk) :
    (b.read x).cString = some x.bytes ↔
      0 ∉ x.bytes ∧ b.data[x.bytes.length]? = some 0 := by
  rw [← List.head?_drop, cString]
  split
  · next hmem => rw [Option.some.injEq, read, takeWhile_eq_iff hmem]
  · next hmem =>
    refine iff_of_false (fun h => by cases h) ?_
    rintro ⟨-, hhead⟩
    exact hmem (List.mem_append_right _ (List.mem_of_mem_head? hhead))

/-- In a cleared buffer a NUL stands behind every read but one that fills it. -/
theorem getElem?_cleared (n : Nat) : cleared.data[n]? = some 0 ↔ n < maxLength := by
  rw [cleared, List.getElem?_replicate, Option.ite_none_right_eq_some]
  simp

end Buffer

/-! ## Reads of a session -/

/-- A session with its buffer. -/
structure ReadState : Type where
  /-- the framing state -/
  session : Session
  /-- `data_` -/
  buffer : Buffer
  /-- whether the last branch left `data_` as it was: at first, nothing has cleared it -/
  dirty : Bool

namespace ReadState

open Utils

/-- A new session; its buffer is not initialised. -/
def new (initial : Buffer) : ReadState := ⟨Session.new, initial, true⟩

/-- Whether `handle_read` leaves `data_` as it is before the next read: the branches end in
`send_response`, which clears it, or in `memset`, but for the one of lone line ends. -/
def keepsData (s : Session) (request : Bytes) (bytesTransferred : Nat) : Bool :=
  match s.longStringHandler request bytesTransferred with
  | some _ => false
  | none =>
    if s.requestStart && complete request bytesTransferred then false
    else if s.requestStart || checkRequestLine request then false
    else !s.requestStart && filterCRLF request == 0

/-- `handle_read` on a read: `none` when the string is not in the buffer. -/
def step (s : ReadState) (x : Chunk) : Option ReadState :=
  let buffer := s.buffer.read x
  buffer.cString.map fun request =>
    let keeps := keepsData s.session request x.bytes.length
    ⟨(s.session.handleRead request x.bytes.length).2, if keeps then buffer else .cleared, keeps⟩

/-- The string `request` is exactly the bytes of the read. -/
def ReadsExactly (s : ReadState) (x : Chunk) : Prop := (s.buffer.read x).cString = some x.bytes

/-- The read has no NUL and leaves room for one; where the buffer has not been cleared, a NUL
stands behind it. -/
def Terminated (s : ReadState) (x : Chunk) : Prop :=
  0 ∉ x.bytes ∧ x.bytes.length < maxLength ∧
    (s.dirty = true → s.buffer.data[x.bytes.length]? = some 0)

instance (s : ReadState) (x : Chunk) : Decidable (Terminated s x) := by
  unfold Terminated
  infer_instance

/-- The invariant: a buffer that is not left as it was is all NUL. -/
def Clean (s : ReadState) : Prop := s.dirty = false → s.buffer = .cleared

theorem clean_new (initial : Buffer) : Clean (new initial) := fun h => by cases h

theorem clean_step {s s' : ReadState} {x : Chunk} (hstep : step s x = some s') : Clean s' := by
  obtain ⟨request, -, rfl⟩ := Option.map_eq_some_iff.mp hstep
  intro hkeeps
  dsimp only at hkeeps ⊢
  rw [hkeeps, if_neg Bool.false_ne_true]

theorem readsExactly_iff {s : ReadState} (hs : Clean s) (x : Chunk) :
    ReadsExactly s x ↔ Terminated s x := by
  rw [ReadsExactly, Buffer.cString_read_iff, Terminated]
  refine and_congr_right fun _ => ⟨fun hnul => ⟨?_, fun _ => hnul⟩, ?_⟩
  · have hlt := (List.getElem?_eq_some_iff.mp hnul).1
    rwa [s.buffer.length_eq] at hlt
  · rintro ⟨hlt, hdirty⟩
    rcases hd : s.dirty with - | -
    · rw [hs hd, Buffer.getElem?_cleared]
      exact hlt
    · exact hdirty hd

/-- **When the session processes exactly the bytes it read**: in a run of reads, from any
content of the buffer, every string is its read exactly if every read is terminated. -/
theorem reads_exactly_run (initial : Buffer) (reads : List Chunk) :
    (∀ e ∈ Machine.trace step (new initial) reads, ReadsExactly e.1 e.2) ↔
      ∀ e ∈ Machine.trace step (new initial) reads, Terminated e.1 e.2 := by
  have hclean : ∀ e ∈ Machine.trace step (new initial) reads, Clean e.1 :=
    Machine.forall_trace (fun _ => True) (fun _ _ _ _ _ hstep => clean_step hstep)
      (clean_new initial) fun _ _ => trivial
  exact forall₂_congr fun e he => readsExactly_iff (hclean e he) e.2

instance (s : ReadState) (x : Chunk) : Decidable (ReadsExactly s x) := by
  unfold ReadsExactly
  infer_instance

/-- Lone line ends, ten times. -/
def lineEnds : Chunk := ⟨(List.replicate 10 crlf).flatten, by decide, by decide⟩

/-- A request of 18 characters. -/
def shortRequest : Chunk := ⟨str "GET / HTTP/1.1\r\n\r\n", by decide, by decide⟩

/-- After lone line ends the next string keeps the last of them, though the buffer was all NUL
in the beginning. -/
theorem not_reads_exactly_stale :
    ¬ ∀ (initial : Buffer) (reads : List Chunk),
      ∀ e ∈ Machine.trace step (new initial) reads, ReadsExactly e.1 e.2 := by
  intro h
  have hstale := h .cleared [lineEnds, shortRequest]
  revert hstale
  decide

end ReadState

end LowKeyWebServer
