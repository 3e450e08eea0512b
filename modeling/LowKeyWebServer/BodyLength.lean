import LowKeyWebServer.NumberText
import LowKeyWebServer.RequestStates

/-!
# The length of the body

`std::stoull` reads more than lengths: blanks and a sign in front of the digits, and anything
behind them. `strictBody_iff` says for which values of Content-Length the parser counts the body
down all the same as if it took nothing but digits.
-/

namespace LowKeyWebServer

/-- A length as it is written: digits, for a positive number of the counter's type. -/
structure StrictLength (value : Bytes) : Prop where
  ne_nil : value ≠ []
  digits : ∀ c ∈ value, isDigit c = true
  pos : 0 < decimal value
  lt : decimal value < 2 ^ 64

/-- `std::stoull` reads the value as a strict length, or finds no number to wait for. -/
def LengthRead (value : Bytes) : Prop :=
  (∀ c ∈ value, isDigit c = true) ∨ decimal (leadingDigits value) = 0 ∨
    2 ^ 64 ≤ decimal (leadingDigits value)

instance : DecidablePred LengthRead := fun value => by unfold LengthRead; infer_instance

namespace RequestParser

/-- A head that has been read up to its last line feed. -/
structure ReadsHead (r : UInt64) (head : Bytes) (p : RequestParser) : Prop where
  run : Reader.run step (init r) head = .pending p
  state : p.state = .newline3

/-- If the parser goes on to a body, the length is strict, and `good` comes with the last byte
that it counts. -/
def StrictBody (p : RequestParser) : Prop :=
  ∀ p', nextCharHandler p '\n' = some (.undefined, p') → p'.state = .body →
    StrictLength (p.getHeaderValue (str "Content-Length")) ∧
      ∀ w : Bytes, w.length = decimal (p.getHeaderValue (str "Content-Length")) →
        ∃ q, Accepts p' w q []

variable {r : UInt64} {head : Bytes} {p p' : RequestParser}

/-- The parser goes on at the last line feed only with a positive length. -/
theorem next_body (hstate : p.state = .newline3)
    (h : nextCharHandler p '\n' = some (.undefined, p')) :
    ∃ n : UInt64, stoull (p.getHeaderValue (str "Content-Length")) = some n ∧ n > 0 ∧
      p' = { p with rawRequest := p.rawRequest ++ str "\n", state := .body, remaining := n } := by
  obtain ⟨state, remaining, raw, path, version, method, uri, headers, body⟩ := p
  obtain rfl : state = .newline3 := hstate
  have hvalue : RequestParser.getHeaderValue
      ⟨.newline3, remaining, raw, path, version, method, uri, headers, body⟩
      (str "Content-Length") = lengthValue headers := rfl
  rw [next_newline3] at h
  rw [hvalue]
  rcases hlength : stoull (lengthValue headers) with - | n
  · rw [hlength] at h
    cases h
  · simp only [hlength] at h
    split at h
    · next hpos =>
      cases h
      exact ⟨n, rfl, hpos, rfl⟩
    · cases h

/-- It goes on wherever there is one. -/
theorem next_newline3_pos {n : UInt64} (hstate : p.state = .newline3)
    (hlength : stoull (p.getHeaderValue (str "Content-Length")) = some n) (hn : n > 0) :
    nextCharHandler p '\n' = some (.undefined,
      { p with rawRequest := p.rawRequest ++ str "\n", state := .body, remaining := n }) := by
  obtain ⟨state, remaining, raw, path, version, method, uri, headers, body⟩ := p
  obtain rfl : state = .newline3 := hstate
  have hlength : stoull (lengthValue headers) = some n := hlength
  rw [next_newline3, hlength]
  exact if_pos hn

theorem strictBody_iff_state (hstate : p.state = .newline3) :
    StrictBody p ↔ LengthRead (p.getHeaderValue (str "Content-Length")) := by
  refine ⟨fun h => ?_, fun h p' hnext _ => ?_⟩
  · by_contra hread
    rw [LengthRead, not_or, not_or] at hread
    obtain ⟨n, hlength, hn⟩ := stoull_pos_iff.mpr
      ⟨Nat.pos_of_ne_zero hread.2.1, Nat.not_le.mp hread.2.2⟩
    exact hread.1 (h _ (next_newline3_pos hstate hlength hn) rfl).1.digits
  · obtain ⟨n, hlength, hn, rfl⟩ := next_body hstate hnext
    obtain ⟨hpos, hlt⟩ := stoull_pos_iff.mp ⟨n, hlength, hn⟩
    have hdigits := h.resolve_right (by omega)
    rw [leadingDigits_digits hdigits] at hpos hlt
    have hne : p.getHeaderValue (str "Content-Length") ≠ [] := by
      intro hnil
      rw [hnil] at hpos
      exact absurd hpos (by decide)
    refine ⟨⟨hne, hdigits, hpos, hlt⟩, fun w hw => ?_⟩
    obtain rfl := Option.some.inj (hlength.symm.trans (stoull_digits hdigits hne hlt))
    refine ⟨_, (accepts_body (UInt64.pos_iff_ne_zero.mp hn)).mpr
      ⟨w, (List.append_nil w).symm, ?_, rfl⟩⟩
    rw [hw, UInt64.toNat_ofNat_of_lt' hlt]

/-- **Strict body length**: at the end of any head the parser waits for the digits' number of bytes
or for none, unless what `std::stoull` reads is a positive number with something around it. -/
theorem strictBody_iff (h : ReadsHead r head p) :
    StrictBody p ↔ LengthRead (p.getHeaderValue (str "Content-Length")) :=
  strictBody_iff_state h.state

/-- The value of the first Content-Length, if the string is such a head. -/
def headLength (r : UInt64) (head : Bytes) : Option Bytes :=
  match Reader.run step (init r) head with
  | .pending p =>
    if p.state = .newline3 then some (p.getHeaderValue (str "Content-Length")) else none
  | .decided _ _ => none

theorem readsHead_of_headLength {value : Bytes} (h : headLength r head = some value) :
    ∃ p, ReadsHead r head p ∧ p.getHeaderValue (str "Content-Length") = value := by
  rw [headLength] at h
  rcases hrun : Reader.run step (init r) head with p | ⟨out, rest⟩
  · simp only [hrun] at h
    obtain ⟨hstate, hvalue⟩ := Option.ite_none_right_eq_some.mp h
    exact ⟨p, ⟨hrun, hstate⟩, Option.some.inj hvalue⟩
  · simp only [hrun] at h
    cases h

/-- A head with the length 5. -/
theorem strictBody_five : ∃ p,
    ReadsHead 0 (str "POST /a HTTP/1.1\r\nContent-Length: 5\r\n\r") p ∧ StrictBody p := by
  have hlength : headLength 0 (str "POST /a HTTP/1.1\r\nContent-Length: 5\r\n\r") = some (str "5") := by
    decide +kernel
  obtain ⟨p, hread, hvalue⟩ := readsHead_of_headLength hlength
  refine ⟨p, hread, (strictBody_iff hread).mpr ?_⟩
  rw [hvalue]
  exact Or.inl (forall_mem_of_all (by decide))

/-- A negative length wraps: the parser waits for 2^64 - 1 bytes. -/
theorem not_strictBody_minus : ¬ ∀ (r : UInt64) (head : Bytes) (p : RequestParser),
    ReadsHead r head p → StrictBody p := by
  intro h
  have hlength : headLength 0 (str "POST /a HTTP/1.1\r\nContent-Length: -1\r\n\r") =
      some (str "-1") := by
    decide +kernel
  obtain ⟨p, hread, hvalue⟩ := readsHead_of_headLength hlength
  have hlengthRead := (strictBody_iff_state hread.state).mp (h 0 _ p hread)
  rw [hvalue] at hlengthRead
  exact absurd hlengthRead (by decide)

end RequestParser

end LowKeyWebServer
