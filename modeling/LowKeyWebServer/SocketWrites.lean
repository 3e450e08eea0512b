import LowKeyWebServer.Dispatcher

/-!
# Two ways to the socket

`async_write` queues its bytes, and the socket takes them in pieces of any size at any time;
`write_some` writes a piece at once. `delivers_iff` says for which responses every order of
these steps delivers the head and then the body, and that a quiet order always does.
-/

namespace LowKeyWebServer

open Std

namespace Dispatcher

/-- A client's socket while a response is dispatched. -/
structure Wire : Type where
  /-- the writes that `dispatch` has not done yet -/
  todo : List Write
  /-- the bytes of `async_write` that have not reached the socket -/
  queued : Bytes
  /-- the bytes that have reached the client -/
  delivered : Bytes

/-- What can happen next. -/
inductive Event : Type where
  /-- `dispatch` calls `send_response` -/
  | sendResponse
  /-- an iteration of the loop: `write_some` writes so many bytes -/
  | writeSome (size : Nat)
  /-- the loop ends: `total_write` is the size of the body -/
  | written
  /-- so many queued bytes reach the socket -/
  | flush (size : Nat)
  deriving DecidableEq

namespace Wire

/-- Before `dispatch`. -/
def start (response : Response) : Wire := ⟨dispatch response, [], []⟩

/-- One step; `none` when the event cannot happen. -/
def step (w : Wire) : Event → Option Wire
  | .sendResponse =>
    match w.todo with
    | .sendResponse response :: todo => some ⟨todo, w.queued ++ response, w.delivered⟩
    | _ => none
  | .writeSome size =>
    match w.todo with
    | .writeSome content :: todo =>
      if 0 < size ∧ size ≤ content.length then
        some ⟨.writeSome (content.drop size) :: todo, w.queued, w.delivered ++ content.take size⟩
      else none
    | _ => none
  | .written =>
    match w.todo with
    | .writeSome [] :: todo => some ⟨todo, w.queued, w.delivered⟩
    | _ => none
  | .flush size =>
    if 0 < size ∧ size ≤ w.queued.length then
      some ⟨w.todo, w.queued.drop size, w.delivered ++ w.queued.take size⟩
    else none

/-- The steps in turn. -/
def run (events : List Event) (w : Wire) : Option Wire := events.foldlM step w

theorem run_cons {e : Event} {events : List Event} {w w' : Wire} :
    run (e :: events) w = some w' ↔ ∃ w₁, w.step e = some w₁ ∧ run events w₁ = some w' := by
  rw [run, List.foldlM_cons]
  exact Option.bind_eq_some_iff

/-- All is written. -/
def Complete (w : Wire) : Prop := w.todo = [] ∧ w.queued = []

/-- The bytes in the order in which they were written: those that have arrived, those in the
queue, and those to come. -/
def stream (w : Wire) : Bytes := w.delivered ++ w.queued ++ w.todo.flatMap Write.bytes

/-- No piece of the body overtakes queued bytes. -/
def Quiet (w : Wire) (e : Event) : Prop := ∀ size, e = .writeSome size → w.queued = []

theorem stream_start (response : Response) :
    (start response).stream = head response ++ response.body := sent_eq response

/-- **One step** that does not overtake keeps the order. -/
theorem stream_step {w w' : Wire} {e : Event} (h : w.step e = some w') (hquiet : Quiet w e) :
    w'.stream = w.stream := by
  obtain ⟨todo, queued, delivered⟩ := w
  cases e with
  | sendResponse =>
    rw [step] at h
    split at h
    · next response todo' heq =>
      obtain rfl := heq
      obtain rfl := Option.some.inj h
      simp [stream, Write.bytes]
    · cases h
  | writeSome size =>
    obtain rfl := hquiet size rfl
    rw [step] at h
    split at h
    · next content todo' heq =>
      obtain rfl := heq
      obtain ⟨-, heq⟩ := Option.ite_none_right_eq_some.mp h
      obtain rfl := Option.some.inj heq
      -- the queue is empty: the piece comes next
      simp only [stream, List.flatMap_cons, Write.bytes, List.append_nil]
      rw [List.append_assoc delivered, ← List.append_assoc (content.take size),
        List.take_append_drop]
    · cases h
  | written =>
    rw [step] at h
    split at h
    · next todo' heq =>
      obtain rfl := heq
      obtain rfl := Option.some.inj h
      simp [stream, Write.bytes]
    · cases h
  | flush size =>
    obtain ⟨-, heq⟩ := Option.ite_none_right_eq_some.mp h
    obtain rfl := Option.some.inj heq
    simp only [stream]
    rw [List.append_assoc delivered, List.take_append_drop]

/-- A run without overtaking keeps the order. -/
theorem stream_run {events : List Event} {w w' : Wire} (h : run events w = some w')
    (hquiet : ∀ e ∈ Machine.trace step w events, Quiet e.1 e.2) : w'.stream = w.stream := by
  induction events generalizing w with
  | nil =>
    obtain rfl := Option.some.inj h
    rfl
  | cons e events ih =>
    obtain ⟨w₁, hstep, hrun⟩ := run_cons.mp h
    rw [Machine.forall_trace_cons] at hquiet
    rw [ih hrun (hquiet.2 w₁ hstep), stream_step hstep hquiet.1]

/-- There is nothing for `write_some` to write. -/
def NoContent (w : Wire) : Prop := ∀ content, .writeSome content ∈ w.todo → content = []

theorem noContent_step {w w' : Wire} {e : Event} (hw : NoContent w) (h : w.step e = some w') :
    NoContent w' ∧ Quiet w e := by
  obtain ⟨todo, queued, delivered⟩ := w
  cases e with
  | sendResponse =>
    rw [step] at h
    split at h
    · next response todo' heq =>
      obtain rfl := heq
      obtain rfl := Option.some.inj h
      exact ⟨fun content hmem => hw content (List.mem_cons_of_mem _ hmem), fun _ heq => by cases heq⟩
    · cases h
  | writeSome size =>
    rw [step] at h
    split at h
    · next content todo' heq =>
      obtain rfl := heq
      obtain rfl := hw content List.mem_cons_self
      obtain ⟨⟨hpos, hle⟩, -⟩ := Option.ite_none_right_eq_some.mp h
      exact absurd hle (Nat.not_le_of_lt hpos)
    · cases h
  | written =>
    rw [step] at h
    split at h
    · next todo' heq =>
      obtain rfl := heq
      obtain rfl := Option.some.inj h
      exact ⟨fun content hmem => hw content (List.mem_cons_of_mem _ hmem), fun _ heq => by cases heq⟩
    · cases h
  | flush size =>
    obtain ⟨-, heq⟩ := Option.ite_none_right_eq_some.mp h
    obtain rfl := Option.some.inj heq
    exact ⟨hw, fun _ heq => by cases heq⟩

theorem quiet_of_noContent {events : List Event} {w w' : Wire} (hw : NoContent w)
    (h : run events w = some w') : ∀ e ∈ Machine.trace step w events, Quiet e.1 e.2 := by
  induction events generalizing w with
  | nil => exact fun _ h => absurd h List.not_mem_nil
  | cons e events ih =>
    obtain ⟨w₁, hstep, hrun⟩ := run_cons.mp h
    rw [Machine.forall_trace_cons]
    refine ⟨(noContent_step hw hstep).2, fun w₂ hstep₂ => ?_⟩
    obtain rfl := Option.some.inj (hstep.symm.trans hstep₂)
    exact ih (noContent_step hw hstep).1 hrun

theorem delivered_of_complete {w : Wire} (h : Complete w) : w.delivered = w.stream := by
  rw [stream, h.1, h.2]
  simp

/-- What a client can receive for these writes. -/
def Receives (writes : List Write) (bytes : Bytes) : Prop :=
  ∃ events w, run events ⟨writes, [], []⟩ = some w ∧ Complete w ∧ w.delivered = bytes

/-- Without `write_some` it is what is written. -/
theorem Receives.eq {writes : List Write} {bytes : Bytes} (h : Receives writes bytes)
    (hnone : ∀ content, .writeSome content ∈ writes → content = []) :
    bytes = writes.flatMap Write.bytes := by
  obtain ⟨events, w, hrun, hcomplete, rfl⟩ := h
  rw [delivered_of_complete hcomplete, stream_run hrun (quiet_of_noContent hnone hrun)]
  rfl

/-- A response that is sent as one string, or has no body, leaves nothing for `write_some`. -/
theorem noContent_dispatch {response : Response} (h : response.srcType < 2 ∨ response.body = [])
    (content : Bytes) (hmem : .writeSome content ∈ dispatch response) : content = [] := by
  rw [dispatch] at hmem
  split at hmem
  · simp at hmem
  · next hsrc => simpa [h.resolve_left hsrc] using hmem

/-- Where one byte overtakes the head, the client receives something else. -/
theorem overtake_ne (response : Response) (b : Byte) (bs : Bytes) :
    b :: (head response ++ bs) ≠ head response ++ b :: bs := by
  intro heq
  obtain ⟨rest, hhead⟩ : ∃ rest, head response = ('H' : Byte) :: ('T' : Byte) :: rest := by
    obtain ⟨rest, hrest⟩ := toString_prefix response.code
    exact ⟨_, by rw [head, hrest]; rfl⟩
  rw [hhead] at heq
  obtain ⟨rfl, heq⟩ := List.cons.inj heq
  exact absurd (List.cons.inj heq).1 (by decide)

/-- The schedule in which it does: `write_some` finds room for one byte before the head is
flushed. -/
theorem exists_overtake {h : Bytes} (hh : h ≠ []) (b : Byte) (bs : Bytes) :
    ∃ events w, run events ⟨[.sendResponse h, .writeSome (b :: bs)], [], []⟩ = some w ∧
      Complete w ∧ w.delivered = b :: (h ++ bs) := by
  have hpos := List.length_pos_of_ne_nil hh
  have hover : step ⟨[.writeSome (b :: bs)], h, []⟩ (.writeSome 1) = some ⟨[.writeSome bs], h, [b]⟩ := by
    simp [step]
  have hflush : step ⟨[.writeSome bs], h, [b]⟩ (.flush h.length) =
      some ⟨[.writeSome bs], [], b :: h⟩ := by
    simp [step, hpos]
  have hfirst : ∀ events w, run events ⟨[.writeSome bs], [], b :: h⟩ = some w →
      run (.sendResponse :: .writeSome 1 :: .flush h.length :: events)
        ⟨[.sendResponse h, .writeSome (b :: bs)], [], []⟩ = some w := fun events w hrun =>
    run_cons.mpr ⟨_, rfl, run_cons.mpr ⟨_, hover, run_cons.mpr ⟨_, hflush, hrun⟩⟩⟩
  rcases bs with - | ⟨c, bs⟩
  · exact ⟨_, ⟨[], [], b :: h⟩, hfirst [.written] _ rfl, ⟨rfl, rfl⟩, by rw [List.append_nil]⟩
  · have hrest : step ⟨[.writeSome (c :: bs)], [], b :: h⟩ (.writeSome (c :: bs).length) =
        some ⟨[.writeSome []], [], b :: (h ++ c :: bs)⟩ := by
      simp [step]
    exact ⟨_, ⟨[], [], b :: (h ++ c :: bs)⟩, hfirst [.writeSome (c :: bs).length, .written] _
      (run_cons.mpr ⟨_, hrest, rfl⟩), ⟨rfl, rfl⟩, rfl⟩

/-- **The order of the bytes**: every complete run delivers the head and then the body exactly
when the response is sent as one string, or has no body; and a run in which no piece of the
body overtakes queued bytes delivers them in order, whatever the response is. -/
theorem delivers_iff (response : Response) :
    ((∀ events w, run events (start response) = some w → Complete w →
        w.delivered = head response ++ response.body) ↔
      response.srcType < 2 ∨ response.body = []) ∧
    ∀ events w, run events (start response) = some w → Complete w →
      (∀ e ∈ Machine.trace step (start response) events, Quiet e.1 e.2) →
      w.delivered = head response ++ response.body := by
  have hordered : ∀ events w, run events (start response) = some w → Complete w →
      (∀ e ∈ Machine.trace step (start response) events, Quiet e.1 e.2) →
      w.delivered = head response ++ response.body := by
    intro events w hrun hcomplete hquiet
    rw [delivered_of_complete hcomplete, stream_run hrun hquiet, stream_start]
  refine ⟨⟨fun hall => ?_, fun hcase events w hrun hcomplete => ?_⟩, hordered⟩
  · by_contra hno
    rw [not_or] at hno
    obtain ⟨b, bs, hbody⟩ := List.exists_cons_of_ne_nil hno.2
    have hstart : start response = ⟨[.sendResponse (head response), .writeSome (b :: bs)], [], []⟩ := by
      rw [start, dispatch, if_neg hno.1, hbody]
    have hne : head response ≠ [] := by
      simp [head, Utils.formatEnd, str]
    obtain ⟨events, w, hrun, hcomplete, hdelivered⟩ := exists_overtake hne b bs
    have hordered := hall events w (hstart ▸ hrun) hcomplete
    rw [hdelivered, hbody] at hordered
    exact overtake_ne response b bs hordered
  · have hnone : NoContent (start response) := noContent_dispatch hcase
    exact hordered events w hrun hcomplete (quiet_of_noContent hnone hrun)

/-- A picture can arrive before its head. -/
theorem body_before_head :
    ¬ ∀ response : Response, 2 ≤ response.srcType → ∀ events w,
      run events (start response) = some w → Complete w →
      w.delivered = head response ++ response.body := by
  intro hall
  let picture : Response := ⟨200, ∅, [0], 2⟩
  obtain ⟨events, w, hrun, hcomplete, hdelivered⟩ :=
    exists_overtake (show head picture ≠ [] by simp [head, Utils.formatEnd, str]) 0 []
  have hordered := hall picture (Int.le_refl 2) events w hrun hcomplete
  exact overtake_ne picture 0 [] (hdelivered.symm.trans hordered)

end Wire

end Dispatcher

end LowKeyWebServer
