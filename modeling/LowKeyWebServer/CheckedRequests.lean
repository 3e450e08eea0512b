import LowKeyWebServer.Session
import LowKeyWebServer.Lib.Trace

/-!
# Only checked requests are served

A request that arrives in several reads is checked read by read; `check_request` never sees it
as a whole. `served_run` is the condition on the reads under which every served request would
pass it. The invariant is that the text collected so far is a request line and header lines
(`Accumulated`).
-/

namespace LowKeyWebServer

open Utils

namespace Session

/-! ## Whole lines -/

/-- The text is made of whole header lines, each accepted by `check_header`. -/
def wholeLines (x : Bytes) : Bool :=
  match h : find crlf x with
  | none => x == []
  | some i =>
    have : (x.drop (i + 2)).length < x.length := length_drop_find_lt (by decide) h Nat.two_pos
    checkHeader (x.take i) && wholeLines (x.drop (i + 2))
  termination_by x.length

theorem wholeLines_some {x : Bytes} {i : Nat} (h : find crlf x = some i) :
    wholeLines x = (checkHeader (x.take i) && wholeLines (x.drop (i + 2))) := by
  rw [wholeLines]
  split
  · next hx =>
    rw [h] at hx
    cases hx
  · next j hx =>
    rw [h] at hx
    obtain rfl := Option.some.inj hx
    rfl

/-- Whole lines, one by one. -/
theorem wholeLines_induction {P : Bytes → Prop} (nil : P [])
    (line : ∀ x i, find crlf x = some i → checkHeader (x.take i) = true →
      wholeLines (x.drop (i + 2)) = true → P (x.drop (i + 2)) → P x)
    {x : Bytes} (hx : wholeLines x = true) : P x := by
  fun_induction wholeLines x with
  | case1 x h =>
    obtain rfl : x = [] := by simpa using hx
    exact nil
  | case2 x i h _ ih =>
    rw [Bool.and_eq_true] at hx
    exact line x i h hx.1 hx.2 (ih hx.2)

/-- More lines follow. -/
theorem wholeLines_append {x y : Bytes} (hx : wholeLines x = true) (hy : wholeLines y = true) :
    wholeLines (x ++ y) = true := by
  revert hy
  apply wholeLines_induction (P := fun x => wholeLines y = true → wholeLines (x ++ y) = true) ?_ ?_ hx
  · exact id
  · intro x i h hheader _ ih hy
    have hi := length_of_find_crlf h
    rw [wholeLines_some (find_append y h), List.take_append_of_le_length (by omega),
      List.drop_append_of_le_length hi, hheader, ih hy]
    rfl

/-- Whole lines and an empty one are the rest of a head. -/
theorem checkHeaders_of_wholeLines {x : Bytes} (hx : wholeLines x = true) :
    checkHeaders (x ++ crlf) = true := by
  apply wholeLines_induction (P := fun x => checkHeaders (x ++ crlf) = true) ?_ ?_ hx
  · decide +kernel
  · intro x i h hheader _ ih
    have hi := length_of_find_crlf h
    rw [checkHeaders_some (find_append crlf h), List.take_append_of_le_length (by omega),
      List.drop_append_of_le_length hi]
    exact Or.inr ⟨hheader, ih⟩

/-- The only line end is the last two characters. -/
theorem eq_line_of_find {x : Bytes} (h : find crlf x = some (x.length - 2)) :
    x = x.take (x.length - 2) ++ crlf := by
  obtain ⟨t, ht, -⟩ := find_eq_some h
  have hlen := length_of_find_crlf h
  have hnil : t = [] := by
    have heq := congrArg List.length ht
    simp only [List.length_append, List.length_take, crlf, List.length_cons, List.length_nil] at heq
    exact List.eq_nil_of_length_eq_zero (by omega)
  rw [hnil, List.append_nil] at ht
  exact ht

/-! ## One read -/

/-- The read that starts a request is one line, and a read that goes on with it is made of
whole header lines. -/
def LineByLine (s : Session) (x : Bytes) : Prop :=
  if s.requestStart = true then ContinuesRequest x → wholeLines x = true
  else checkRequest x = false → OpensRequest x → find crlf x = some (x.length - 2)

instance (s : Session) (x : Bytes) : Decidable (LineByLine s x) := by
  unfold LineByLine
  infer_instance

/-- A request that the read completes passes `check_request`. -/
def ServesChecked (s : Session) (x : Bytes) : Prop :=
  ∀ request s', s.handleRead x x.length = (.goodRequest request, s') → checkRequest request = true

/-- The invariant: the text of a started request is a checked request line and whole header
lines; otherwise there is none. -/
def Accumulated (s : Session) : Prop :=
  if s.requestStart = true then
    ∃ line lines, s.httpBody = line ++ lines ∧ find crlf line = some (line.length - 2) ∧
      OpensRequest line ∧ wholeLines lines = true
  else s = new

/-- A started request that ends passes `check_request`. -/
theorem checkRequest_of_accumulated {line lines : Bytes}
    (hend : find crlf line = some (line.length - 2)) (hopens : OpensRequest line)
    (hlines : wholeLines lines = true) : checkRequest (line ++ lines ++ crlf) = true := by
  have hlen := length_of_find_crlf hend
  rw [List.append_assoc, checkRequest_some (find_append _ hend),
    List.take_append_of_le_length (by omega), List.drop_append_of_le_length hlen, ← eq_line_of_find hend]
  refine ⟨hopens.1, Option.isSome_iff_ne_none.mp hopens.2, ?_⟩
  have hdrop : line.drop (line.length - 2 + 2) = [] := List.drop_eq_nil_of_le (by omega)
  rw [hdrop, List.nil_append]
  exact checkHeaders_of_wholeLines hlines

/-- **What one read can do**, with its request started or not. -/
theorem accumulated_read {s : Session} {x : Bytes} (hs : Accumulated s) (hx : LineByLine s x) :
    Accumulated (s.handleRead x x.length).2 ∧ ServesChecked s x := by
  obtain ⟨started, body⟩ := s
  rw [Accumulated] at hs
  rw [LineByLine] at hx
  cases started with
  | false =>
    rw [if_neg Bool.false_ne_true] at hs hx
    rw [hs]
    rcases handleRead_new x with ⟨hreq, h⟩ | ⟨hno, hopens, h⟩ | ⟨-, -, h⟩ | ⟨-, -, h⟩
    · refine ⟨by rw [h]; rfl, fun request s' heq => ?_⟩
      rw [h] at heq
      obtain rfl := Action.goodRequest.inj (Prod.mk.inj heq).1
      exact hreq
    · refine ⟨?_, fun request s' heq => ?_⟩
      · rw [h]
        exact ⟨x, [], (List.append_nil x).symm, hx hno hopens, hopens, by decide +kernel⟩
      · rw [h] at heq
        cases (Prod.mk.inj heq).1
    all_goals
      refine ⟨by rw [h]; rfl, fun request s' heq => ?_⟩
      rw [h] at heq
      cases (Prod.mk.inj heq).1
  | true =>
    rw [if_pos rfl] at hs hx
    obtain ⟨line, lines, hbody, hend, hopens, hlines⟩ := hs
    obtain rfl : body = line ++ lines := hbody
    rcases handleRead_started (line ++ lines) x with ⟨rfl, h⟩ | ⟨hcont, h⟩ | ⟨-, -, h⟩
    · refine ⟨by rw [h]; rfl, fun request s' heq => ?_⟩
      rw [h] at heq
      obtain rfl := Action.goodRequest.inj (Prod.mk.inj heq).1
      exact checkRequest_of_accumulated hend hopens hlines
    · refine ⟨?_, fun request s' heq => ?_⟩
      · rw [h]
        exact ⟨line, lines ++ x, List.append_assoc _ _ _, hend, hopens,
          wholeLines_append hlines (hx hcont)⟩
      · rw [h] at heq
        cases (Prod.mk.inj heq).1
    · refine ⟨by rw [h]; rfl, fun request s' heq => ?_⟩
      rw [h] at heq
      cases (Prod.mk.inj heq).1

/-! ## Runs -/

/-- One read of a session. -/
def step (s : Session) (x : Bytes) : Option Session := some (s.handleRead x x.length).2

theorem accumulated_new : Accumulated new := by
  rw [Accumulated]
  rfl

/-- **Only checked requests are served**: while requests come line by line, every request that
is served passes `check_request`. -/
theorem served_run (reads : List Bytes)
    (hreads : ∀ e ∈ Machine.trace step new reads, LineByLine e.1 e.2) :
    ∀ e ∈ Machine.trace step new reads, ServesChecked e.1 e.2 := by
  have haccumulated : ∀ e ∈ Machine.trace step new reads, Accumulated e.1 := by
    apply Machine.forall_trace (fun e => LineByLine e.1 e.2) _ accumulated_new hreads
    intro s x s' hs hx hstep
    obtain rfl := Option.some.inj hstep
    exact (accumulated_read hs hx).1
  exact fun e he => (accumulated_read (haccumulated e he) (hreads e he)).2

/-- The theorem at a request with one header. -/
theorem served_line_by_line :
    ∃ e ∈ Machine.trace step new [str "GET / HTTP/1.1\r\n", str "Host: a\r\n", crlf],
      (e.1.handleRead e.2 e.2.length).1 = .goodRequest (str "GET / HTTP/1.1\r\nHost: a\r\n\r\n") ∧
        ServesChecked e.1 e.2 := by
  have hall := served_run [str "GET / HTTP/1.1\r\n", str "Host: a\r\n", crlf] (by decide +kernel)
  have hmem : (⟨true, str "GET / HTTP/1.1\r\nHost: a\r\n"⟩, crlf) ∈
      Machine.trace step new [str "GET / HTTP/1.1\r\n", str "Host: a\r\n", crlf] := by decide +kernel
  exact ⟨_, hmem, by decide, hall _ hmem⟩

/-- Two lines in one read are taken for one header. -/
theorem not_served_two_lines :
    ¬ ∀ reads, ∀ e ∈ Machine.trace step new reads, ServesChecked e.1 e.2 := by
  intro h
  have hmem : (⟨true, str "GET / HTTP/1.1\r\nHost: a\r\nbad\r\n"⟩, crlf) ∈
      Machine.trace step new [str "GET / HTTP/1.1\r\n", str "Host: a\r\nbad\r\n", crlf] := by
    decide +kernel
  have hread : handleRead ⟨true, str "GET / HTTP/1.1\r\nHost: a\r\nbad\r\n"⟩ crlf crlf.length =
      (.goodRequest (str "GET / HTTP/1.1\r\nHost: a\r\nbad\r\n\r\n"), new) := by decide
  have hchecked := h _ _ hmem _ _ hread
  revert hchecked
  decide +kernel

end Session

end LowKeyWebServer
