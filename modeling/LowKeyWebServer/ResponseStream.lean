import LowKeyWebServer.BodyFraming
import LowKeyWebServer.SocketWrites
import LowKeyWebServer.StatusPage

/-!
# The stream of a client

A client of a kept-alive connection gets all its responses one behind the other, and only the
Content-Length of each tells it where the next one begins: `readStream`. By `replies_run` it
finds exactly the responses that have been written, in any run and whatever pieces the socket takes, as
long as every response is framed and none has a body that `write_some` sends.
-/

namespace LowKeyWebServer

open SymbolCode

/-! ## Decimal numbers -/

namespace Client

open Dispatcher hiding toString

/-- The status line, the headers and the body. -/
abbrev Reply : Type := Bytes × List (Bytes × Bytes) × Bytes

/-- One response off the front: its body is as long as its first Content-Length. -/
def readReply (bytes : Bytes) : Option (Reply × Bytes) :=
  (decode bytes).bind fun (status, entries, rest) =>
    (entries.find? fun e => decide (IsContentLength e.1)).bind fun e =>
      if e.2.all isDigit ∧ decimal e.2 ≤ rest.length then
        some ((status, entries, rest.take (decimal e.2)), rest.drop (decimal e.2))
      else none

/-- All responses of a stream. -/
def readStream (bytes : Bytes) : Option (List Reply) :=
  if bytes = [] then some []
  else
    match readReply bytes with
    | none => none
    | some (reply, rest) =>
      if rest.length < bytes.length then (readStream rest).map (reply :: ·) else none
  termination_by bytes.length

/-- The bytes are this response, whatever follows them. -/
def IsReply (reply : Reply) (bytes : Bytes) : Prop :=
  bytes ≠ [] ∧ ∀ t, readReply (bytes ++ t) = some (reply, t)

variable {reply : Reply} {replies : List Reply} {bytes : Bytes}

theorem IsReply.readStream (h : IsReply reply bytes) (t : Bytes) :
    readStream (bytes ++ t) = (readStream t).map (reply :: ·) := by
  have hpos : 0 < bytes.length := List.length_pos_of_ne_nil h.1
  have hlt : t.length < (bytes ++ t).length := by
    rw [List.length_append]
    omega
  rw [Client.readStream, if_neg (List.append_ne_nil_of_left_ne_nil h.1 t), h.2 t]
  exact if_pos hlt

/-- Alone, the bytes are decoded to the response. -/
theorem IsReply.decode (h : IsReply reply bytes) : decode bytes = some reply := by
  have hread := h.2 []
  rw [List.append_nil] at hread
  obtain ⟨⟨status, entries, rest⟩, hdecode, hread⟩ := Option.bind_eq_some_iff.mp hread
  obtain ⟨e, -, hread⟩ := Option.bind_eq_some_iff.mp hread
  obtain ⟨-, hread⟩ := Option.ite_none_right_eq_some.mp hread
  obtain ⟨rfl, hrest⟩ := Prod.mk.inj (Option.some.inj hread)
  rw [hdecode, List.take_of_length_le (List.drop_eq_nil_iff.mp hrest)]

end Client

/-! ## Runs -/

namespace Process

open Client Dispatcher

variable {memory : Nat → Memory} {p q : Process} {e : Event}

/-- The request of the event is not on one of the paths without the right Content-Length. -/
def FramesBody (p : Process) (e : Event) : Prop :=
  ∀ v, p.visitOf e = some v → p.site.FramesBody v

/-- What can be read back from any stream, and arrives as it is written. -/
def Readable (writes : List Write) : Prop :=
  (∃ reply, IsReply reply (writes.flatMap Write.bytes)) ∧
    ∀ content, .writeSome content ∈ writes → content = []

/-- Every response that has been written can be read back from any stream, and so can every page that
is kept. -/
structure Streams (p : Process) : Prop where
  clean : p.site.history.PagesAre Clean
  framed : PagesFramed p.site.history
  replies : ∀ out ∈ p.sent, Readable out.2

theorem Streams.of_same (hp : p.Streams) (hsite : q.site = p.site) (hsent : q.sent = p.sent) :
    q.Streams := by
  refine ⟨?_, ?_, ?_⟩
  · rw [hsite]
    exact hp.clean
  · rw [hsite]
    exact hp.framed
  · rw [hsent]
    exact hp.replies

end Process

end LowKeyWebServer
