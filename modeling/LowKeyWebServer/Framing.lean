import LowKeyWebServer.Session
import LowKeyWebServer.RequestParser

/-!
# Framing of requests by reads

A byte stream of requests reaches a session in reads. `Delivers xs text` says which
reads the session turns into one call for `text`: the whole request in one read, or its
head line by line with the last line end alone. `framing_iff` is the exact condition:
the calls are those of the requests, one by one, exactly when the reads fall into such
groups.
-/

namespace LowKeyWebServer

open Utils

/-! ## Requests -/

/-- The number of body bytes that a head declares: the value of its first line that is
named exactly `Content-Length`. -/
def declaredBody (head : Bytes) : Nat :=
  let key := crlf ++ str "Content-Length:"
  match find key head with
  | none => 0
  | some i =>
    ((stoull ((head.drop (i + key.length)).takeWhile (· != '\r'))).map UInt64.toNat).getD 0

/-- A valid request: a head that `check_request` accepts, and the body it declares. -/
structure ValidRequest : Type where
  /-- the request line and the headers, up to the first empty line -/
  head : Bytes
  /-- the body -/
  body : Bytes
  /-- the head is accepted -/
  head_ok : checkRequest head = true
  /-- the head ends with its first empty line -/
  head_end : find (crlf ++ crlf) head = some (head.length - 4)
  /-- the body is as long as the head declares -/
  body_length : body.length = declaredBody head
  /-- there are no NUL bytes -/
  no_nul : (0 : Byte) ∉ head ++ body

/-- The text of a request. -/
def ValidRequest.text (r : ValidRequest) : Bytes := r.head ++ r.body

/-! ## A head keeps being accepted when a body follows -/

/-- The header lines of a longer text, by induction on the lines read. -/
theorem checkHeaders_append (n : Nat) :
    ∀ s : Bytes, s.length ≤ n → ∀ t, checkHeaders s = true → checkHeaders (s ++ t) = true := by
  induction n with
  | zero =>
    intro s hs t h
    obtain rfl : s = [] := List.eq_nil_of_length_eq_zero (by omega)
    rw [checkHeaders_none rfl] at h
    cases h
  | succ n ih =>
    intro s hs t h
    rcases hf : find crlf s with - | i
    · rw [checkHeaders_none hf] at h
      cases h
    · have hi := length_of_find_crlf hf
      rw [checkHeaders_some hf] at h
      rw [checkHeaders_some (find_append t hf), List.take_append_of_le_length (by omega),
        List.drop_append_of_le_length hi]
      rcases h with hnil | ⟨hc, hrest⟩
      · exact Or.inl hnil
      · exact Or.inr ⟨hc, ih _ (by rw [List.length_drop]; omega) t hrest⟩

/-- **A body after the head changes nothing.** -/
theorem checkRequest_append {head : Bytes} (h : checkRequest head = true) (body : Bytes) :
    checkRequest (head ++ body) = true := by
  rcases hf : find crlf head with - | i
  · rw [checkRequest_none hf] at h
    cases h
  · have hi := length_of_find_crlf hf
    rw [checkRequest_some hf] at h
    obtain ⟨hline, hm, hheaders⟩ := h
    rw [checkRequest_some (find_append body hf), List.take_append_of_le_length (by omega),
      List.drop_append_of_le_length hi]
    exact ⟨hline, hm, checkHeaders_append _ _ (Nat.le_refl _) body hheaders⟩

theorem ValidRequest.checkRequest_text (r : ValidRequest) : checkRequest r.text = true :=
  checkRequest_append r.head_ok r.body

/-! ## Groups of reads -/

namespace Session

/-- The reads that become one call for this text. -/
inductive Delivers : List Bytes → Bytes → Prop where
  /-- the whole request in one read -/
  | whole {x : Bytes} : checkRequest x = true → Delivers [x] x
  /-- the request line, then the rest of the head, and the empty line as a read of its own -/
  | lines {x : Bytes} {ys : List Bytes} : checkRequest x = false → OpensRequest x →
      (∀ y ∈ ys, ContinuesRequest y) → Delivers (x :: (ys ++ [crlf])) (x ++ ys.flatten ++ crlf)

theorem calls_write {s s' : Session} {x : Bytes} (h : s.handleRead x x.length = (.handleWrite, s'))
    (xs : List Bytes) : calls s (x :: xs) = calls s' xs := by
  rw [calls, h]

theorem calls_good {s s' : Session} {x text : Bytes}
    (h : s.handleRead x x.length = (.goodRequest text, s')) (xs : List Bytes) :
    calls s (x :: xs) = .goodRequest text :: calls s' xs := by
  rw [calls, h]

theorem calls_bad {s s' : Session} {x text : Bytes}
    (h : s.handleRead x x.length = (.badRequest text, s')) (xs : List Bytes) :
    calls s (x :: xs) = .badRequest text :: calls s' xs := by
  rw [calls, h]

/-- The middle reads are collected. -/
theorem calls_continues {ys : List Bytes} (hys : ∀ y ∈ ys, ContinuesRequest y) (b : Bytes)
    (xs : List Bytes) : calls ⟨true, b⟩ (ys ++ xs) = calls ⟨true, b ++ ys.flatten⟩ xs := by
  induction ys generalizing b with
  | nil => rw [List.nil_append, List.flatten_nil, List.append_nil]
  | cons y ys ih =>
    rw [List.forall_mem_cons] at hys
    have hread : handleRead ⟨true, b⟩ y y.length = (.handleWrite, ⟨true, b ++ y⟩) := by
      rcases handleRead_started b y with ⟨hy, -⟩ | ⟨-, h⟩ | ⟨-, hy, -⟩
      · exact absurd hy hys.1.1
      · exact h
      · exact absurd hys.1 hy
    rw [List.cons_append, calls_write hread, ih hys.2, List.flatten_cons, List.append_assoc]

/-- A group of reads is one call, and the session is as it was. -/
theorem calls_of_delivers {g : List Bytes} {text : Bytes} (h : Delivers g text) (xs : List Bytes) :
    calls new (g ++ xs) = .goodRequest text :: calls new xs := by
  cases h with
  | whole hx =>
    rcases handleRead_new text with ⟨-, h⟩ | ⟨hno, -⟩ | ⟨hno, -⟩ | ⟨hno, -⟩
    · exact calls_good h xs
    all_goals
      rw [hx] at hno
      cases hno
  | @lines x ys hno hopen hys =>
    have hread : new.handleRead x x.length = (.handleWrite, ⟨true, x⟩) := by
      rcases handleRead_new x with ⟨hx, -⟩ | ⟨-, -, h⟩ | ⟨-, hx, -⟩ | ⟨-, hx, -⟩
      · rw [hno] at hx
        cases hx
      · exact h
      · exact absurd hopen hx
      · exact absurd hopen hx
    have hend : ∀ b, handleRead ⟨true, b⟩ crlf crlf.length = (.goodRequest (b ++ crlf), new) := by
      intro b
      rcases handleRead_started b crlf with ⟨-, h⟩ | ⟨h, -⟩ | ⟨h, -⟩
      · exact h
      · exact absurd rfl h.1
      · exact absurd rfl h
    rw [List.cons_append, calls_write hread, List.append_assoc, calls_continues hys,
      List.singleton_append, calls_good (hend _)]

theorem calls_of_forall₂ {groups : List (List Bytes)} {texts : List Bytes}
    (h : List.Forall₂ Delivers groups texts) :
    calls new groups.flatten = texts.map .goodRequest := by
  induction h with
  | nil => rfl
  | cons hg _ ih => rw [List.flatten_cons, calls_of_delivers hg, ih, List.map_cons]

/-! ## No other cut delivers the requests -/

/-- What is delivered has been read. -/
theorem length_delivered_le {xs texts : List Bytes} :
    (calls new xs = texts.map .goodRequest → texts.flatten.length ≤ xs.flatten.length) ∧
    ∀ b, calls ⟨true, b⟩ xs = texts.map .goodRequest →
      texts.flatten.length ≤ b.length + xs.flatten.length := by
  induction xs generalizing texts with
  | nil =>
    have hnil : ∀ s, calls s [] = texts.map .goodRequest → texts = [] := fun s h =>
      List.map_eq_nil_iff.mp h.symm
    refine ⟨fun h => ?_, fun b h => ?_⟩ <;>
      · obtain rfl := hnil _ h
        exact Nat.zero_le _
  | cons x xs ih =>
    rw [List.flatten_cons, List.length_append]
    -- a call for `text` is the first delivery
    have hcons : ∀ text, .goodRequest text :: calls new xs = texts.map .goodRequest →
        texts.flatten.length ≤ text.length + xs.flatten.length := by
      intro text h
      rcases texts with - | ⟨t, ts⟩
      · exact Nat.zero_le _
      · rw [List.map_cons, List.cons.injEq, Action.goodRequest.injEq] at h
        have hlen := ih.1 h.2
        rw [List.flatten_cons, List.length_append, ← h.1]
        omega
    have hbad : ∀ text (l : List Action), .badRequest text :: l ≠ texts.map .goodRequest := by
      intro text l h
      cases texts <;> cases h
    refine ⟨fun h => ?_, fun b h => ?_⟩
    · rcases handleRead_new x with ⟨-, hx⟩ | ⟨-, -, hx⟩ | ⟨-, -, hx⟩ | ⟨-, -, hx⟩
      · rw [calls_good hx] at h
        exact hcons x h
      · rw [calls_write hx] at h
        exact ih.2 x h
      · rw [calls_write hx] at h
        have hlen := ih.1 h
        omega
      · rw [calls_bad hx] at h
        exact absurd h (hbad _ _)
    · rcases handleRead_started b x with ⟨-, hx⟩ | ⟨-, hx⟩ | ⟨-, -, hx⟩
      · rw [calls_good hx] at h
        have hlen := hcons _ h
        rw [List.length_append] at hlen
        omega
      · rw [calls_write hx] at h
        have hlen := ih.2 _ h
        rw [List.length_append] at hlen
        omega
      · rw [calls_bad hx] at h
        exact absurd h (hbad _ _)

/-- A session that delivers all it reads has read groups, by induction on the reads: from
a new session, and from one that has collected `b`. -/
theorem groups_of_calls {xs : List Bytes} (hne : ∀ x ∈ xs, x ≠ []) {texts : List Bytes} :
    (calls new xs = texts.map .goodRequest → texts.flatten = xs.flatten →
      ∃ groups, xs = groups.flatten ∧ List.Forall₂ Delivers groups texts) ∧
    ∀ b t, calls ⟨true, b⟩ xs = (t :: texts).map .goodRequest →
      t ++ texts.flatten = b ++ xs.flatten →
      ∃ ys groups, xs = ys ++ crlf :: groups.flatten ∧ (∀ y ∈ ys, ContinuesRequest y) ∧
        t = b ++ ys.flatten ++ crlf ∧ List.Forall₂ Delivers groups texts := by
  induction xs generalizing texts with
  | nil =>
    refine ⟨fun h _ => ?_, fun b t h => nomatch h⟩
    obtain rfl := List.map_eq_nil_iff.mp h.symm
    exact ⟨[], rfl, List.Forall₂.nil⟩
  | cons x xs ih =>
    rw [List.forall_mem_cons] at hne
    have ih := fun texts => @ih hne.2 texts
    rw [List.flatten_cons]
    refine ⟨fun h hflat => ?_, fun b t h hflat => ?_⟩
    · rcases handleRead_new x with ⟨hreq, hx⟩ | ⟨hno, hopen, hx⟩ | ⟨-, -, hx⟩ | ⟨-, -, hx⟩
      · -- a whole request in one read
        rw [calls_good hx] at h
        rcases texts with - | ⟨t, ts⟩
        · cases h
        · rw [List.map_cons, List.cons.injEq, Action.goodRequest.injEq] at h
          obtain ⟨rfl, h⟩ := h
          obtain ⟨groups, rfl, hgroups⟩ := (ih ts).1 h (List.append_cancel_left hflat)
          exact ⟨[x] :: groups, rfl, .cons (.whole hreq) hgroups⟩
      · -- the start of a request
        rw [calls_write hx] at h
        rcases texts with - | ⟨t, ts⟩
        · exact absurd (List.append_eq_nil_iff.mp hflat.symm).1 hne.1
        · obtain ⟨ys, groups, rfl, hys, rfl, hgroups⟩ := (ih ts).2 x t h hflat
          refine ⟨(x :: (ys ++ [crlf])) :: groups, ?_, .cons (.lines hno hopen hys) hgroups⟩
          simp
      · -- an ignored read is never delivered
        rw [calls_write hx] at h
        have hlen := length_delivered_le.1 h
        have hpos := List.length_pos_of_ne_nil hne.1
        rw [hflat, List.length_append] at hlen
        omega
      · rw [calls_bad hx] at h
        cases texts <;> cases h
    · rcases handleRead_started b x with ⟨rfl, hx⟩ | ⟨hcont, hx⟩ | ⟨-, -, hx⟩
      · rw [calls_good hx, List.map_cons, List.cons.injEq, Action.goodRequest.injEq] at h
        obtain ⟨rfl, h⟩ := h
        rw [← List.append_assoc] at hflat
        obtain ⟨groups, rfl, hgroups⟩ := (ih texts).1 h (List.append_cancel_left hflat)
        exact ⟨[], groups, rfl, fun _ hy => absurd hy List.not_mem_nil, by simp, hgroups⟩
      · rw [calls_write hx] at h
        rw [← List.append_assoc] at hflat
        obtain ⟨ys, groups, rfl, hys, rfl, hgroups⟩ := (ih texts).2 _ t h hflat
        exact ⟨x :: ys, groups, rfl, List.forall_mem_cons.mpr ⟨hcont, hys⟩, by simp, hgroups⟩
      · rw [calls_bad hx] at h
        cases h

/-! ## The stream -/

/-- **When the framing does not depend on the cut**: requests that arrive one a read are
delivered one by one, and any other cut of their stream delivers them just when its reads
fall into groups, each of them a request in one read or line by line. -/
theorem framing_iff {requests : List ValidRequest} {reads : List Bytes}
    (hcut : ∀ x ∈ reads, x ≠ [] ∧ x.length ≤ 1023)
    (hstream : reads.flatten = (requests.map ValidRequest.text).flatten) :
    calls new (requests.map ValidRequest.text) = requests.map (fun r => .goodRequest r.text) ∧
    (calls new reads = requests.map (fun r => .goodRequest r.text) ↔
      ∃ groups, reads = groups.flatten ∧
        List.Forall₂ (fun g r => Delivers g r.text) groups requests) := by
  have hmap : requests.map (fun r => Action.goodRequest r.text) =
      (requests.map ValidRequest.text).map .goodRequest := by rw [List.map_map]; rfl
  rw [hmap]
  refine ⟨?_, fun h => ?_, ?_⟩
  · have hwhole : ∀ rs : List ValidRequest, List.Forall₂ Delivers
        ((rs.map ValidRequest.text).map fun x => [x]) (rs.map ValidRequest.text) := by
      intro rs
      induction rs with
      | nil => exact .nil
      | cons r rs ih => exact .cons (.whole r.checkRequest_text) ih
    have hall := calls_of_forall₂ (hwhole requests)
    rwa [← List.flatMap_def, List.flatMap_singleton'] at hall
  · obtain ⟨groups, hreads, hgroups⟩ :=
      (groups_of_calls fun x hx => (hcut x hx).1).1 h hstream.symm
    exact ⟨groups, hreads, List.forall₂_map_right_iff.mp hgroups⟩
  · rintro ⟨groups, rfl, hgroups⟩
    exact calls_of_forall₂ (List.forall₂_map_right_iff.mpr hgroups)

/-- A request with three headers. -/
def getSecond : ValidRequest where
  head := str "GET /static_files/second.txt HTTP/1.1\r\nUser-Agent:nc/0.0.1\r\nHost: 127.0.0.1\r\nAccept: */*\r\n\r\n"
  body := []
  head_ok := by decide +kernel
  head_end := by decide
  body_length := by decide
  no_nul := by decide

/-- The theorem at a request that arrives line by line. -/
theorem framing_getSecond :
    calls new [str "GET /static_files/second.txt HTTP/1.1\r\n", str "User-Agent:nc/0.0.1\r\n",
      str "Host: 127.0.0.1\r\n", str "Accept: */*\r\n", crlf] = [.goodRequest getSecond.text] := by
  refine (@framing_iff [getSecond] _ (by decide) (by decide)).2.mpr
    ⟨[str "GET /static_files/second.txt HTTP/1.1\r\n" :: ([str "User-Agent:nc/0.0.1\r\n",
      str "Host: 127.0.0.1\r\n", str "Accept: */*\r\n"] ++ [crlf])], rfl, .cons ?_ .nil⟩
  exact .lines (by decide +kernel) (by decide +kernel) (by decide +kernel)

/-- The same request cut inside a header: its first half is a bad request. -/
theorem framing_split_header :
    ¬ ∀ (requests : List ValidRequest) (reads : List Bytes), (∀ x ∈ reads, x ≠ [] ∧ x.length ≤ 1023) →
      reads.flatten = (requests.map ValidRequest.text).flatten →
      calls new reads = requests.map (fun r => .goodRequest r.text) := by
  intro h
  have hcalls := h [getSecond] [str "GET /static_files/second.txt HTTP/1.1\r\nUser-Agent:",
    str "nc/0.0.1\r\nHost: 127.0.0.1\r\nAccept: */*\r\n\r\n"] (by decide) (by decide)
  exact absurd hcalls (by decide +kernel)

end Session

end LowKeyWebServer
