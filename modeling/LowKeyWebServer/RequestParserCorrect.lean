import LowKeyWebServer.RequestStates

/-!
# The request parser accepts exactly its grammar

The rules of the single states are composed: the request line, the headers with
their continuation lines (by induction on the text for soundness, on the list of
headers for completeness), and the body. The result is `parse_good_iff`: from a fresh
parser, `parse` returns `good` after `k` bytes exactly when those bytes are the text of
a `RequestText`, and then the `Request` has its components.
-/

namespace LowKeyWebServer

namespace RequestParser

section Compose

variable {q : RequestParser} {w v : Bytes} {r : UInt64}
  {raw path ver m u b : Bytes} {hs : List (Bytes × Bytes)}

/-! ## The path of a non-empty URI -/

theorem decodePath_ne_nil {s d : Bytes} (hs : s ≠ []) (h : decodePath s = some d) : d ≠ [] := by
  rcases s with - | ⟨c, s⟩
  · exact absurd rfl hs
  · unfold decodePath at h
    split at h
    · split at h
      · split at h
        · obtain ⟨e, -, rfl⟩ := Option.map_eq_some_iff.mp h
          exact List.cons_ne_nil _ _
        · cases h
      · cases h
    · split at h <;>
      · obtain ⟨e, -, rfl⟩ := Option.map_eq_some_iff.mp h
        exact List.cons_ne_nil _ _

/-- A non-empty URI has a path: its last character is looked at only when there is one. -/
theorem inferPath_ne_none (path : Bytes) {s : Bytes} (hs : s ≠ []) :
    ∃ p, inferPath path s = some p := by
  rw [inferPath]
  rcases hd : decodePath s with - | d
  · exact ⟨[], rfl⟩
  · dsimp only
    split
    · exact ⟨[], rfl⟩
    · have hne : path ++ d ≠ [] := fun h =>
        decodePath_ne_nil hs hd (List.append_eq_nil_iff.mp h).2
      rw [List.getLast?_eq_getLast_of_ne_nil hne]
      dsimp only
      split
      · exact ⟨_, rfl⟩
      · exact ⟨_, rfl⟩

theorem inferPath_nil : inferPath [] [] = none := by decide

/-! ## The request line -/

/-- The version as the automaton accumulates it. -/
theorem version_shape (d e : Byte) (y z : Bytes) :
    [] ++ str "HTTP/" ++ [d] ++ y ++ str "." ++ [e] ++ z =
      str "HTTP/" ++ (d :: y) ++ str "." ++ (e :: z) := by
  simp

/-- Soundness for the request line. -/
theorem requestLine_sound (h : Accepts (init r) w q v) :
    ∃ method uri major minor t raw' path', w = method ++ str " " ++ uri ++ str " " ++
        (str "HTTP/" ++ major ++ str "." ++ minor) ++ crlf ++ t ∧
      method ≠ [] ∧ (∀ c ∈ method, TokenByte c) ∧ uri ≠ [] ∧ (∀ c ∈ uri, UriByte c) ∧
      major ≠ [] ∧ (∀ c ∈ major, DigitByte c) ∧ minor ≠ [] ∧ (∀ c ∈ minor, DigitByte c) ∧
      Accepts ⟨.headerStart, r, raw', path', str "HTTP/" ++ major ++ str "." ++ minor, method, uri,
        [], []⟩ t q v := by
  rw [init, accepts_methodStart] at h
  obtain ⟨a, w, rfl, ha, h⟩ := h
  rw [accepts_method] at h
  obtain ⟨x, w, rfl, hx, h⟩ := h
  rw [accepts_uri] at h
  obtain ⟨uri, w, path', rfl, huri, hpath, h⟩ := h
  rw [accepts_versionH] at h
  obtain ⟨w, rfl, h⟩ := h
  rw [accepts_versionMajorStart] at h
  obtain ⟨d, w, rfl, hd, h⟩ := h
  rw [accepts_versionMajor] at h
  obtain ⟨y, w, rfl, hy, h⟩ := h
  rw [accepts_versionMinorStart] at h
  obtain ⟨e, w, rfl, he, h⟩ := h
  rw [accepts_versionMinor] at h
  obtain ⟨z, t, rfl, hz, h⟩ := h
  have huri_ne : uri ≠ [] := by
    rintro rfl
    rw [List.append_nil, inferPath_nil] at hpath
    cases hpath
  rw [version_shape] at h
  exact ⟨a :: x, uri, d :: y, e :: z, t, _, path', by simp [str], List.cons_ne_nil _ _,
    List.forall_mem_cons.mpr ⟨ha, hx⟩, huri_ne, huri, List.cons_ne_nil _ _,
    List.forall_mem_cons.mpr ⟨hd, hy⟩, List.cons_ne_nil _ _, List.forall_mem_cons.mpr ⟨he, hz⟩, h⟩

/-- Completeness for the request line. -/
theorem requestLine_complete {method uri major minor : Bytes} (hm : method ≠ [])
    (hm' : ∀ c ∈ method, TokenByte c) (hu : uri ≠ []) (hu' : ∀ c ∈ uri, UriByte c)
    (hj : major ≠ []) (hj' : ∀ c ∈ major, DigitByte c) (hn : minor ≠ [])
    (hn' : ∀ c ∈ minor, DigitByte c) :
    ∃ raw' path', ∀ t q v, Accepts ⟨.headerStart, r, raw', path',
        str "HTTP/" ++ major ++ str "." ++ minor, method, uri, [], []⟩ t q v →
      Accepts (init r) (method ++ str " " ++ uri ++ str " " ++
        (str "HTTP/" ++ major ++ str "." ++ minor) ++ crlf ++ t) q v := by
  obtain ⟨path', hpath⟩ := inferPath_ne_none [] hu
  rcases method with - | ⟨a, x⟩
  · exact absurd rfl hm
  rcases major with - | ⟨d, y⟩
  · exact absurd rfl hj
  rcases minor with - | ⟨e, z⟩
  · exact absurd rfl hn
  rw [List.forall_mem_cons] at hm' hj' hn'
  refine ⟨[] ++ [a] ++ x ++ str " " ++ uri ++ str " " ++ str "HTTP/" ++ [d] ++ y ++ str "." ++ [e] ++
    z ++ crlf, path', fun t q v h => ?_⟩
  rw [← version_shape] at h
  rw [init, accepts_methodStart]
  refine ⟨a, _, rfl, hm'.1, accepts_method.mpr ⟨x, _, ?_, hm'.2, accepts_uri.mpr
    ⟨uri, _, path', rfl, hu', hpath, accepts_versionH.mpr ⟨_, rfl, accepts_versionMajorStart.mpr
      ⟨d, _, rfl, hj'.1, accepts_versionMajor.mpr ⟨y, _, rfl, hj'.2, accepts_versionMinorStart.mpr
        ⟨e, _, rfl, hn'.1, accepts_versionMinor.mpr ⟨z, t, rfl, hn'.2, ?_⟩⟩⟩⟩⟩⟩⟩⟩
  · simp [str]
  · exact h

/-! ## The headers -/

/-- Soundness for the rest of a header and the headers after it, by induction on the
length of the text. -/
theorem headers_sound (k : Nat) :
    ∀ {w raw : Bytes} {hs : List (Bytes × Bytes)} {n x : Bytes}, w.length ≤ k →
      Accepts ⟨.headerStart, r, raw, path, ver, m, u, hs ++ [(n, x)], b⟩ w q v →
      ∃ (cs : List Continuation) (hds : List HeaderText) (t raw' : Bytes),
        w = cs.flatMap Continuation.render ++ hds.flatMap HeaderText.render ++ ('\r' : Byte) :: t ∧
        Accepts ⟨.newline3, r, raw', path, ver, m, u,
          hs ++ [(n, x ++ cs.flatMap Continuation.text)] ++ hds.map HeaderText.entry, b⟩ t q v := by
  induction k with
  | zero =>
    intro w raw hs n x hw h
    obtain rfl : w = [] := List.eq_nil_of_length_eq_zero (by omega)
    exact absurd h not_accepts_nil
  | succ k ih =>
    intro w raw hs n x hw h
    rw [accepts_headerStart] at h
    rcases h with ⟨t, rfl, h⟩ | ⟨-, a, t, rfl, ha, h⟩ | ⟨a, t, rfl, ha, h⟩
    · exact ⟨[], [], t, _, rfl, by simpa using h⟩
    · -- a continuation line of the last header
      rw [accepts_headerLws] at h
      obtain ⟨bl, y, t, rfl, hbl, hy, hhd, h⟩ := h
      have hlen : t.length ≤ k := by simp at hw; omega
      obtain ⟨cs, hds, t', raw', rfl, hacc⟩ := ih hlen h
      refine ⟨⟨a :: bl, y, List.cons_ne_nil _ _, List.forall_mem_cons.mpr ⟨ha, hbl⟩, hy, hhd⟩ :: cs,
        hds, t', raw', ?_, ?_⟩
      · simp [Continuation.render]
      · simpa using hacc
    · -- a new header
      rw [accepts_headerName] at h
      obtain ⟨y, t, rfl, hy, h⟩ := h
      rw [accepts_headerValue] at h
      obtain ⟨z, t, rfl, hz, h⟩ := h
      have hlen : t.length ≤ k := by simp at hw; omega
      obtain ⟨cs, hds, t', raw', rfl, hacc⟩ := ih hlen h
      refine ⟨[], ⟨a :: y, z, cs, List.cons_ne_nil _ _, List.forall_mem_cons.mpr ⟨ha, hy⟩, hz⟩ :: hds,
        t', raw', ?_, ?_⟩
      · simp [HeaderText.render]
      · simpa [HeaderText.entry] using hacc

/-- Soundness for all the headers. -/
theorem allHeaders_sound
    (h : Accepts ⟨.headerStart, r, raw, path, ver, m, u, [], b⟩ w q v) :
    ∃ (hds : List HeaderText) (t raw' : Bytes),
      w = hds.flatMap HeaderText.render ++ ('\r' : Byte) :: t ∧
      Accepts ⟨.newline3, r, raw', path, ver, m, u, hds.map HeaderText.entry, b⟩ t q v := by
  rw [accepts_headerStart] at h
  rcases h with ⟨t, rfl, h⟩ | ⟨hne, -⟩ | ⟨a, t, rfl, ha, h⟩
  · exact ⟨[], t, _, rfl, h⟩
  · exact absurd rfl hne
  · rw [accepts_headerName] at h
    obtain ⟨y, t, rfl, hy, h⟩ := h
    rw [accepts_headerValue] at h
    obtain ⟨z, t, rfl, hz, h⟩ := h
    obtain ⟨cs, hds, t', raw', rfl, hacc⟩ := headers_sound t.length (Nat.le_refl _) h
    refine ⟨⟨a :: y, z, cs, List.cons_ne_nil _ _, List.forall_mem_cons.mpr ⟨ha, hy⟩, hz⟩ :: hds,
      t', raw', ?_, ?_⟩
    · simp [HeaderText.render]
    · simpa [HeaderText.entry] using hacc

/-- Completeness for the continuation lines of a header. -/
theorem conts_complete (cs : List Continuation) :
    ∀ (raw n x : Bytes), ∃ raw', ∀ t q v,
      Accepts ⟨.headerStart, r, raw', path, ver, m, u,
        hs ++ [(n, x ++ cs.flatMap Continuation.text)], b⟩ t q v →
      Accepts ⟨.headerStart, r, raw, path, ver, m, u, hs ++ [(n, x)], b⟩
        (cs.flatMap Continuation.render ++ t) q v := by
  induction cs with
  | nil =>
    intro raw n x
    exact ⟨raw, fun t q v h => by simpa using h⟩
  | cons c cs ih =>
    intro raw n x
    obtain ⟨bl, y, hne, hbl, hy, hhd⟩ := c
    rcases bl with - | ⟨a, bl⟩
    · exact absurd rfl hne
    rw [List.forall_mem_cons] at hbl
    obtain ⟨raw', hraw⟩ := ih (raw ++ [a] ++ bl ++ y ++ crlf) n (x ++ y)
    refine ⟨raw', fun t q v h => ?_⟩
    rw [List.flatMap_cons, Continuation.render, accepts_headerStart]
    refine Or.inr (Or.inl ⟨by simp, a, bl ++ y ++ crlf ++ (cs.flatMap Continuation.render ++ t),
      by simp, hbl.1, accepts_headerLws.mpr ⟨bl, y, _, rfl, hbl.2, hy, hhd, hraw t q v ?_⟩⟩)
    simpa using h

/-- Completeness for the headers, by induction on their list. -/
theorem headers_complete (hds : List HeaderText) :
    ∀ (raw : Bytes) (hs : List (Bytes × Bytes)), ∃ raw', ∀ t q v,
      Accepts ⟨.newline3, r, raw', path, ver, m, u, hs ++ hds.map HeaderText.entry, b⟩ t q v →
      Accepts ⟨.headerStart, r, raw, path, ver, m, u, hs, b⟩
        (hds.flatMap HeaderText.render ++ ('\r' : Byte) :: t) q v := by
  induction hds with
  | nil =>
    intro raw hs
    refine ⟨raw ++ str "\r", fun t q v h => accepts_headerStart.mpr (Or.inl ⟨t, rfl, ?_⟩)⟩
    simpa using h
  | cons hd hds ih =>
    intro raw hs
    obtain ⟨n, x, cs, hne, hn, hx⟩ := hd
    rcases n with - | ⟨a, y⟩
    · exact absurd rfl hne
    rw [List.forall_mem_cons] at hn
    obtain ⟨raw₁, h₁⟩ : ∃ raw₁, ∀ t q v,
        Accepts ⟨.headerStart, r, raw₁, path, ver, m, u,
          hs ++ [(a :: y, x ++ cs.flatMap Continuation.text)], b⟩ t q v →
        Accepts ⟨.headerStart, r, raw ++ [a] ++ y ++ str ": " ++ x ++ crlf, path, ver, m, u,
          hs ++ [(a :: y, x)], b⟩ (cs.flatMap Continuation.render ++ t) q v :=
      conts_complete cs _ _ _
    obtain ⟨raw', h₂⟩ := ih raw₁ (hs ++ [(a :: y, x ++ cs.flatMap Continuation.text)])
    refine ⟨raw', fun t q v h => ?_⟩
    have htext : (a :: y) ++ str ": " ++ x ++ crlf ++ cs.flatMap Continuation.render ++
        hds.flatMap HeaderText.render ++ ('\r' : Byte) :: t =
          a :: (y ++ str ": " ++ (x ++ crlf ++ (cs.flatMap Continuation.render ++
            (hds.flatMap HeaderText.render ++ ('\r' : Byte) :: t)))) := by
      simp
    rw [List.flatMap_cons, HeaderText.render, htext, accepts_headerStart]
    refine Or.inr (Or.inr ⟨a, _, rfl, hn.1, accepts_headerName.mpr ⟨y, _, rfl, hn.2,
      accepts_headerValue.mpr ⟨x, _, rfl, hx, h₁ _ q v (h₂ t q v ?_)⟩⟩⟩)
    simpa [HeaderText.entry] using h

/-! ## The whole request -/

theorem declaredLength_entries (hds : List HeaderText) :
    declaredLength (hds.map HeaderText.entry) = contentLength hds := by
  have hfind : (hds.map HeaderText.entry).find? (fun h => h.1 == str "Content-Length") =
      (hds.find? fun h => h.name == str "Content-Length").map HeaderText.entry := by
    rw [List.find?_map]
    rfl
  rw [declaredLength, lengthValue, hfind, contentLength]
  split
  · next hnone => rw [hnone]; rfl
  · next hsome => rw [hsome]; rfl

/-- One comparison of a chain is one entry of a table. -/
theorem getD_lookup_cons (s k : Bytes) (x d : Method) (l : List (Bytes × Method)) :
    (((k, x) :: l).lookup s).getD d = if s = k then x else (l.lookup s).getD d := by
  rw [List.lookup_cons]
  by_cases hs : s = k
  · simp [hs]
  · simp [hs, beq_eq_false_iff_ne.mpr hs]

/-- The parser's chain of comparisons is the table of the methods. -/
theorem getMethod_eq (p : RequestParser) : p.getMethod = RequestText.methodOf p.method := by
  simp only [getMethod, RequestText.methodOf, RequestText.methodTable, getD_lookup_cons]
  rfl

/-- **Soundness**: an accepted text starts with a request, and its components are extracted. -/
theorem accepts_sound (h : Accepts (init r) w q v) :
    ∃ t : RequestText, w = t.render ++ v ∧ q.toRequest = t.toRequest := by
  obtain ⟨method, uri, major, minor, t, raw', path', rfl, hm, hm', hu, hu', hj, hj', hn, hn', h₁⟩ :=
    requestLine_sound h
  obtain ⟨hds, t, raw', rfl, h₂⟩ := allHeaders_sound h₁
  obtain ⟨x, rfl, hx, hreq⟩ := accepts_newline3.mp ⟨q, h₂, rfl⟩
  rw [declaredLength_entries] at hx
  refine ⟨⟨method, uri, major, minor, hds, x, hm, hm', hu, hu', hj, hj', hn, hn', hx⟩, ?_, ?_⟩
  · simp [RequestText.render, RequestText.version, crlf]
  · rw [hreq, toRequest, getMethod_eq]
    rfl

/-- **Completeness**: the text of a request is accepted, whatever comes after it. -/
theorem accepts_complete (r : UInt64) (t : RequestText) (v : Bytes) :
    ∃ q, Accepts (init r) (t.render ++ v) q v ∧ q.toRequest = t.toRequest := by
  obtain ⟨method, uri, major, minor, hds, x, hm, hm', hu, hu', hj, hj', hn, hn', hx⟩ := t
  rw [← declaredLength_entries] at hx
  -- the run is assembled from its end: the body, then the headers, then the request line
  obtain ⟨raw₁, path', hline⟩ := requestLine_complete (r := r) hm hm' hu hu' hj hj' hn hn'
  obtain ⟨raw₂, hhead⟩ : ∃ raw₂, ∀ t q v,
      Accepts ⟨.newline3, r, raw₂, path', str "HTTP/" ++ major ++ str "." ++ minor, method, uri,
        [] ++ hds.map HeaderText.entry, []⟩ t q v →
      Accepts ⟨.headerStart, r, raw₁, path', str "HTTP/" ++ major ++ str "." ++ minor, method, uri,
        [], []⟩ (hds.flatMap HeaderText.render ++ ('\r' : Byte) :: t) q v :=
    headers_complete hds raw₁ []
  obtain ⟨q, hq, hreq⟩ : ∃ q, Accepts ⟨.newline3, r, raw₂, path',
      str "HTTP/" ++ major ++ str "." ++ minor, method, uri, hds.map HeaderText.entry, []⟩
        (('\n' : Byte) :: (x ++ v)) q v ∧ q.toRequest = _ :=
    accepts_newline3.mpr ⟨x, rfl, hx, rfl⟩
  refine ⟨q, ?_, ?_⟩
  · have hacc := hline _ q v (hhead _ q v hq)
    simpa [RequestText.render, RequestText.version, crlf] using hacc
  · rw [hreq, toRequest, getMethod_eq]
    rfl

end Compose

/-! ## No undefined behaviour

The only index that a fresh parser can get wrong is the last character of the path of
an empty URI. `Safe read p` says what the bytes read so far have to do with the states
in which an index is evaluated. -/

/-- The automaton's indices are in range, or the URI is still empty. -/
def Safe (read : Bytes) (p : RequestParser) : Prop :=
  match p.state with
  | .methodStart => read = [] ∧ p.path = [] ∧ p.uri = []
  | .method => read ≠ [] ∧ (∀ c ∈ read, TokenByte c) ∧ p.path = [] ∧ p.uri = []
  | .uri => ∃ method, method ≠ [] ∧ (∀ c ∈ method, TokenByte c) ∧ p.path = [] ∧
      read = method ++ str " " ++ p.uri
  | .headerLws | .headerName | .spaceBeforeHeaderValue | .headerValue | .newline2 => p.headers ≠ []
  | .body => p.remaining ≠ 0
  | _ => True

theorem safe_fresh {p : RequestParser} (hp : p.Fresh) : Safe [] p := by
  rw [hp]
  exact ⟨rfl, rfl, rfl⟩

theorem modifyBack_ne_nil {f : Bytes × Bytes → Bytes × Bytes} {hs hs' : List (Bytes × Bytes)}
    (h : modifyBack f hs = some hs') : hs' ≠ [] := by
  rcases hs with - | ⟨g, hs⟩
  · cases h
  · rcases hs with - | ⟨g', hs⟩
    · cases h
      exact List.cons_ne_nil _ _
    · rw [modifyBack] at h
      · obtain ⟨_, -, rfl⟩ := Option.map_eq_some_iff.mp h
        exact List.cons_ne_nil _ _
      · exact List.cons_ne_nil _ _

/-- One byte keeps the automaton safe. -/
theorem Safe.next {read : Bytes} {p p' : RequestParser} {a : Byte} (hp : Safe read p)
    (h : nextCharHandler p a = some (.undefined, p')) : Safe (read ++ [a]) p' := by
  obtain ⟨st, r, raw, path, ver, m, u, hs, b⟩ := p
  cases st <;> simp only [Safe] at hp <;> simp only [nextCharHandler] at h
  case methodStart =>
    obtain ⟨rfl, rfl, rfl⟩ := hp
    split at h
    · cases h
    · next ht =>
      cases h
      refine ⟨List.cons_ne_nil _ _, ?_, rfl, rfl⟩
      simpa [isNotToken_eq] using ht
  case method =>
    obtain ⟨hne, htok, rfl, rfl⟩ := hp
    split at h
    · next hsp =>
      cases h
      subst hsp
      exact ⟨read, hne, htok, rfl, by simp [str]⟩
    · split at h
      · cases h
      · next ht =>
        cases h
        have ha : TokenByte a := by simpa [isNotToken_eq] using ht
        refine ⟨by simp, fun c hc => ?_, rfl, rfl⟩
        rcases List.mem_append.mp hc with hc | hc
        · exact htok c hc
        · exact List.mem_singleton.mp hc ▸ ha
  case uri =>
    obtain ⟨method, hne, htok, rfl, rfl⟩ := hp
    split at h
    · obtain ⟨path', -, hp'⟩ := Option.map_eq_some_iff.mp h
      cases hp'
      trivial
    · split at h
      · cases h
      · cases h
        exact ⟨method, hne, htok, rfl, by simp⟩
  case headerStart =>
    split at h
    · cases h
      trivial
    · split at h
      · next hl =>
        cases h
        exact hl.1
      · split at h
        · cases h
        · cases h
          exact List.append_ne_nil_of_right_ne_nil _ (List.cons_ne_nil _ _)
  case headerLws =>
    split at h
    · cases h
      exact hp
    · split at h
      · cases h
        exact hp
      · split at h
        · cases h
        · obtain ⟨hs', hm, hp'⟩ := Option.map_eq_some_iff.mp h
          cases hp'
          exact modifyBack_ne_nil hm
  case headerName | headerValue =>
    split at h
    · cases h
      exact hp
    · split at h
      · cases h
      · obtain ⟨hs', hm, hp'⟩ := Option.map_eq_some_iff.mp h
        cases hp'
        exact modifyBack_ne_nil hm
  case newline3 =>
    split at h
    · split at h
      · split at h
        · next hr =>
          cases h
          exact UInt64.pos_iff_ne_zero.mp hr
        · cases h
      · cases h
    · cases h
  case body =>
    split at h
    · next hr =>
      cases h
      exact UInt64.pos_iff_ne_zero.mp hr
    · cases h
  case versionMajor | versionMinor =>
    split at h
    · cases h
      trivial
    · split at h
      · cases h
        trivial
      · cases h
  all_goals
    -- the states that take one byte of a class
    split at h
    · cases h
      trivial
    · cases h

/-- An automaton that reads on is still safe. -/
theorem Safe.pending {read w : Bytes} {p p' : RequestParser} (hp : Safe read p)
    (h : Reader.run step p w = .pending p') :
    Safe (read ++ w) p' := by
  exact Reader.pending_rule (fun _ _ _ _ hp hmore => hp.next (next_of_more hmore)) read hp h

theorem modifyBack_ne_none {f : Bytes × Bytes → Bytes × Bytes} {hs : List (Bytes × Bytes)}
    (h : hs ≠ []) : modifyBack f hs ≠ none := by
  rw [← List.dropLast_append_getLast h, modifyBack_concat]
  exact Option.some_ne_none _

/-- A safe automaton evaluates no index out of range, except on an empty URI. -/
theorem Safe.defined {read : Bytes} {p : RequestParser} {a : Byte} (hp : Safe read p)
    (hu : ∀ method, method ≠ [] → (∀ c ∈ method, TokenByte c) → read ++ [a] ≠ method ++ str "  ") :
    nextCharHandler p a ≠ none := by
  obtain ⟨st, r, raw, path, ver, m, u, hs, b⟩ := p
  intro h
  cases st <;> simp only [Safe] at hp <;> simp only [nextCharHandler] at h
  case uri =>
    obtain ⟨method, hne, htok, rfl, rfl⟩ := hp
    split at h
    · next hsp =>
      subst hsp
      rw [Option.map_eq_none_iff] at h
      have hempty : u = [] := by
        by_contra hu'
        obtain ⟨path', hpath⟩ := inferPath_ne_none [] hu'
        rw [hpath] at h
        cases h
      subst hempty
      exact hu method hne htok (by simp [str])
    · split at h <;> cases h
  case headerLws | headerName | headerValue =>
    repeat' (split at h; · cases h)
    exact modifyBack_ne_none hp (Option.map_eq_none_iff.mp h)
  all_goals
    repeat' split at h
    all_goals cases h

/-- **A fresh parser is defined** on every string with a non-empty URI part: the run is
undecided in a safe state, or decided with a result. -/
theorem Safe.run {read : Bytes} {p : RequestParser} (hp : Safe read p) {w : Bytes}
    (hu : ¬ EmptyUri (read ++ w)) :
    (∃ p', Reader.run step p w = .pending p' ∧ Safe (read ++ w) p') ∨
      ∃ r p' v, Reader.run step p w = .decided (some (r, p')) v := by
  induction w generalizing read p with
  | nil => exact Or.inl ⟨p, rfl, by rwa [List.append_nil]⟩
  | cons a w ih =>
    have hdef : nextCharHandler p a ≠ none := hp.defined fun method hne htok hread =>
      hu ⟨method, w, hne, htok, by rw [← hread, List.append_assoc, List.singleton_append]⟩
    rcases hnext : nextCharHandler p a with - | ⟨r, p'⟩
    · exact absurd hnext hdef
    · cases r with
      | undefined =>
        rw [Reader.run_more (step_undefined hnext)]
        have happ : read ++ a :: w = read ++ [a] ++ w := by simp
        rw [happ] at hu ⊢
        exact ih (hp.next hnext) hu
      | bad =>
        rw [Reader.run_done (step_bad hnext)]
        exact Or.inr ⟨.bad, p', w, rfl⟩
      | good =>
        rw [Reader.run_done (step_good hnext)]
        exact Or.inr ⟨.good, p', w, rfl⟩

/-! ## Parse -/

variable {p q : RequestParser} {req : Request} {s v : Bytes}

/-- An accepting run, as an outcome of `parse`. -/
theorem parse_of_accepts (h : Accepts p s q v) :
    p.parse req s = some ⟨.good, v, q.reset, q.toRequest⟩ := by
  rw [parse, h]

/-- A good outcome is an accepting run. -/
theorem accepts_of_parse {out : ParseOutcome} (h : p.parse req s = some out)
    (hgood : out.result = .good) :
    ∃ q, Accepts p s q out.rest ∧ out.request = q.toRequest := by
  rw [parse] at h
  split at h
  · cases h
    cases hgood
  · cases h
  · next r q rest hrun =>
    cases h
    obtain rfl : r = .good := hgood
    exact ⟨q, hrun, rfl⟩

/-- A decided outcome leaves a fresh parser. -/
theorem fresh_of_parse {out : ParseOutcome} (h : p.parse req s = some out)
    (hdec : out.result ≠ .undefined) : out.parser.Fresh := by
  rw [parse] at h
  split at h
  · cases h
    exact absurd rfl hdec
  · cases h
  · cases h
    exact fresh_reset _

/-- An undefined result leaves the automaton where the input ends. -/
theorem pending_of_parse {out : ParseOutcome} (h : p.parse req s = some out)
    (hundefined : out.result = .undefined) : Reader.run step p s = .pending out.parser := by
  rw [parse] at h
  split at h
  · next p' hrun =>
    obtain rfl := Option.some.inj h
    exact hrun
  · cases h
  · next r p' rest hrun =>
    obtain rfl := Option.some.inj h
    obtain rfl : r = .undefined := hundefined
    obtain ⟨u, a, -, p₁, -, hstep⟩ := Reader.exists_of_decided hrun
    rw [step] at hstep
    split at hstep
    · cases hstep
    · cases hstep
    · next hne hnext =>
      cases hstep
      exact absurd rfl hne

/-- From a fresh parser `parse` is defined, unless the URI is empty. -/
theorem exists_parse (hp : p.Fresh) (req : Request) (hs : ¬ EmptyUri s) :
    ∃ out, p.parse req s = some out := by
  rcases (safe_fresh hp).run hs with ⟨p', hrun, -⟩ | ⟨r, p', v, hrun⟩
  · exact ⟨_, by rw [parse, hrun]⟩
  · exact ⟨_, by rw [parse, hrun]⟩

/-- **The request parser accepts exactly its grammar**, and extracts the components of
what it accepts: from a fresh parser, `parse` returns `good` after the first `k` bytes
exactly when they are the text of a request. -/
theorem parse_good_iff (hp : p.Fresh) (req : Request) (hs : ¬ EmptyUri s) :
    ∃ out, p.parse req s = some out ∧
      (∀ k ≤ s.length, (out.result = .good ∧ out.rest = s.drop k) ↔
        ∃ t : RequestText, s.take k = t.render) ∧
      (∀ t : RequestText, t.render <+: s → out.request = t.toRequest) := by
  have hcomplete : ∀ t : RequestText, t.render <+: s →
      ∃ q, Accepts p s q (s.drop t.render.length) ∧ q.toRequest = t.toRequest := by
    rintro t ⟨v, rfl⟩
    rw [List.drop_left, hp]
    exact accepts_complete p.remaining t v
  obtain ⟨out, hout⟩ := exists_parse hp req hs
  refine ⟨out, hout, fun k hk => ⟨?_, ?_⟩, fun t ht => ?_⟩
  · rintro ⟨hgood, hrest⟩
    obtain ⟨q, hacc, -⟩ := accepts_of_parse hout hgood
    rw [hp] at hacc
    obtain ⟨t, hrender, -⟩ := accepts_sound hacc
    refine ⟨t, ?_⟩
    rw [hrest] at hrender
    exact List.append_cancel_right ((List.take_append_drop k s).trans hrender)
  · rintro ⟨t, ht⟩
    obtain ⟨q, hacc, -⟩ := hcomplete t ⟨s.drop k, by rw [← ht, List.take_append_drop]⟩
    rw [← ht, List.length_take_of_le hk] at hacc
    rw [parse_of_accepts hacc] at hout
    cases hout
    exact ⟨rfl, rfl⟩
  · obtain ⟨q, hacc, hreq⟩ := hcomplete t ht
    rw [parse_of_accepts hacc] at hout
    cases hout
    exact hreq

/-- A text without two blanks in a row has no empty URI part. -/
theorem not_emptyUri_of_find (h : find (str "  ") s = none) : ¬ EmptyUri s := by
  rintro ⟨method, rest, -, -, hs⟩
  exact find_eq_none h method rest hs

/-- The theorem at a request with a body: it is read to its end. -/
theorem parse_good_post :
    ∃ out, (init 0).parse .cleared (str "POST /a HTTP/1.1\r\nContent-Length: 2\r\n\r\nhi") = some out ∧
      out.result = .good ∧ ∃ t : RequestText,
        str "POST /a HTTP/1.1\r\nContent-Length: 2\r\n\r\nhi" = t.render ∧
          out.request = t.toRequest := by
  obtain ⟨out, hout, hiff, hreq⟩ := parse_good_iff
    (s := str "POST /a HTTP/1.1\r\nContent-Length: 2\r\n\r\nhi") (fresh_init 0) .cleared
    (not_emptyUri_of_find (by decide))
  have hrun : ((init 0).parse .cleared
      (str "POST /a HTTP/1.1\r\nContent-Length: 2\r\n\r\nhi")).map (fun o => (o.result, o.rest)) =
        some (.good, []) := by decide +kernel
  rw [hout] at hrun
  obtain ⟨hgood, hrest⟩ := Prod.mk.inj (Option.some.inj hrun)
  have hall : out.rest = (str "POST /a HTTP/1.1\r\nContent-Length: 2\r\n\r\nhi").drop
      (str "POST /a HTTP/1.1\r\nContent-Length: 2\r\n\r\nhi").length := by
    rw [hrest, List.drop_length]
  obtain ⟨t, ht⟩ := (hiff _ (Nat.le_refl _)).mp ⟨hgood, hall⟩
  rw [List.take_length] at ht
  exact ⟨out, hout, hgood, t, ht, hreq t (ht ▸ List.prefix_refl _)⟩

end RequestParser

end LowKeyWebServer
