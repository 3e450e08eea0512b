import LowKeyWebServer.RequestGrammar

/-!
# The request parser, state by state

One rule for each state of the automaton, each an equivalence: an accepting run from
that state reads exactly this, and goes on as an accepting run from the next state.
The rules come from three patterns (`accepts_letter`, `accepts_byte`, `accepts_scan`),
and their composition (`RequestParserCorrect`) never unfolds `nextCharHandler` again.
-/

namespace LowKeyWebServer

namespace RequestParser

/-! ## The automaton's character classes -/

theorem isNotToken_eq (b : Byte) : isNotToken b = decide (¬ TokenByte b) := by
  revert b
  exact forall_byte (by decide +kernel)

theorem isControlChar_eq (b : Byte) : isControlChar (toInt b) = decide (¬ TextByte b) := by
  revert b
  exact forall_byte (by decide +kernel)

theorem isDigit_eq (b : Byte) : isDigit (toInt b) = decide (DigitByte b) := by
  revert b
  exact forall_byte (by decide +kernel)

/-! ## Accepting runs

`Accepts p w q v`: from `p`, reading `w` ends in `good` with the parser at `q` and `v`
unread. -/

/-- The run from `p` on `w` is decided `good`. -/
def Accepts (p : RequestParser) (w : Bytes) (q : RequestParser) (v : Bytes) : Prop :=
  Reader.run step p w = .decided (some (.good, q)) v

section Rules

variable {p q : RequestParser} {w v : Bytes}

theorem step_undefined {p' : RequestParser} {a : Byte}
    (h : nextCharHandler p a = some (.undefined, p')) : step p a = .more p' := by
  rw [step, h]

theorem next_of_more {p' : RequestParser} {a : Byte} (h : step p a = .more p') :
    nextCharHandler p a = some (.undefined, p') := by
  rw [step] at h
  split at h
  · cases h
  · next hnext =>
    obtain rfl := Reader.Step.more.inj h
    exact hnext
  · cases h

theorem step_bad {p' : RequestParser} {a : Byte}
    (h : nextCharHandler p a = some (.bad, p')) : step p a = .done (some (.bad, p')) := by
  rw [step, h]

theorem step_good {p' : RequestParser} {a : Byte}
    (h : nextCharHandler p a = some (.good, p')) : step p a = .done (some (.good, p')) := by
  rw [step, h]

theorem not_accepts_nil : ¬ Accepts p [] q v := by
  intro h
  cases h

theorem accepts_undefined {p' : RequestParser} {a : Byte}
    (h : nextCharHandler p a = some (.undefined, p')) :
    Accepts p (a :: w) q v ↔ Accepts p' w q v := by
  rw [Accepts, Reader.run_more (step_undefined h), Accepts]

theorem not_accepts_bad {a : Byte} (h : ∃ p', nextCharHandler p a = some (.bad, p')) :
    ¬ Accepts p (a :: w) q v := by
  obtain ⟨p', hp'⟩ := h
  rw [Accepts, Reader.run_done (step_bad hp')]
  intro hd
  simp at hd

theorem accepts_good {p' : RequestParser} {a : Byte}
    (h : nextCharHandler p a = some (.good, p')) :
    Accepts p (a :: w) q v ↔ q = p' ∧ v = w := by
  rw [Accepts, Reader.run_done (step_good h)]
  simp [eq_comm]

theorem not_accepts_none {a : Byte} (h : nextCharHandler p a = none) :
    ¬ Accepts p (a :: w) q v := by
  have hstep : step p a = .done none := by rw [step, h]
  rw [Accepts, Reader.run_done hstep]
  intro hd
  simp at hd

/-- A state that takes one byte of a class: every other byte is bad. -/
theorem accepts_byte {P : Byte → Prop} {g : Byte → RequestParser}
    (hp : ∀ a, P a → nextCharHandler p a = some (.undefined, g a))
    (hbad : ∀ a, ¬ P a → ∃ p', nextCharHandler p a = some (.bad, p')) :
    Accepts p w q v ↔ ∃ a t, w = a :: t ∧ P a ∧ Accepts (g a) t q v := by
  refine ⟨fun h => ?_, ?_⟩
  · rcases w with - | ⟨a, t⟩
    · exact absurd h not_accepts_nil
    · by_cases ha : P a
      · exact ⟨a, t, rfl, ha, (accepts_undefined (hp a ha)).mp h⟩
      · exact absurd h (not_accepts_bad (hbad a ha))
  · rintro ⟨a, t, rfl, ha, h⟩
    exact (accepts_undefined (hp a ha)).mpr h

/-- A state that takes one fixed byte. -/
theorem accepts_letter {e : Byte} {p' : RequestParser}
    (he : nextCharHandler p e = some (.undefined, p'))
    (hbad : ∀ a, a ≠ e → ∃ p', nextCharHandler p a = some (.bad, p')) :
    Accepts p w q v ↔ ∃ t, w = e :: t ∧ Accepts p' t q v := by
  rw [accepts_byte (P := (· = e)) (g := fun _ => p') (fun a ha => ha ▸ he) hbad]
  refine ⟨?_, fun ⟨t, hw, h⟩ => ⟨e, t, hw, rfl, h⟩⟩
  rintro ⟨a, t, hw, rfl, h⟩
  exact ⟨t, hw, h⟩

/-- A state that accumulates a class of bytes is left on the first byte outside it. -/
theorem accepts_leave {f : Bytes → RequestParser} {P : Byte → Prop}
    (hp : ∀ acc a, P a → nextCharHandler (f acc) a = some (.undefined, f (acc ++ [a]))) :
    Accepts (f []) w q v ↔
      ∃ m a t, w = m ++ a :: t ∧ (∀ b ∈ m, P b) ∧ ¬ P a ∧ Accepts (f m) (a :: t) q v :=
  Reader.decided_scan (fun acc a ha => step_undefined (hp acc a ha)) []

/-- A state that accumulates a class of bytes until the byte `e`. -/
theorem accepts_scan {f g : Bytes → RequestParser} {P : Byte → Prop} {e : Byte}
    (hp : ∀ acc a, P a → nextCharHandler (f acc) a = some (.undefined, f (acc ++ [a])))
    (he : ∀ acc, nextCharHandler (f acc) e = some (.undefined, g acc))
    (hbad : ∀ acc a, ¬ P a → a ≠ e → ∃ p', nextCharHandler (f acc) a = some (.bad, p'))
    (hPe : ¬ P e) :
    Accepts (f []) w q v ↔
      ∃ m t, w = m ++ e :: t ∧ (∀ b ∈ m, P b) ∧ Accepts (g m) t q v := by
  rw [accepts_leave hp]
  refine ⟨?_, ?_⟩
  · rintro ⟨m, a, t, rfl, hm, ha, h⟩
    have hae : a = e := by
      by_contra hne
      exact not_accepts_bad (hbad m a ha hne) h
    subst hae
    exact ⟨m, t, rfl, hm, (accepts_undefined (he m)).mp h⟩
  · rintro ⟨m, t, rfl, hm, h⟩
    exact ⟨m, e, t, rfl, hm, hPe, (accepts_undefined (he m)).mpr h⟩

end Rules

/-! ## The request line, state by state -/

section States

variable {q : RequestParser} {w v : Bytes} {r : UInt64}
  {raw path ver m u b : Bytes} {hs : List (Bytes × Bytes)}

theorem accepts_methodStart :
    Accepts ⟨.methodStart, r, raw, path, ver, m, u, hs, b⟩ w q v ↔
      ∃ a t, w = a :: t ∧ TokenByte a ∧
        Accepts ⟨.method, r, raw ++ [a], path, ver, m ++ [a], u, hs, b⟩ t q v := by
  refine accepts_byte (fun a ha => ?_) (fun a ha => ?_)
  · simp [nextCharHandler, isNotToken_eq, ha]
  · simp [nextCharHandler, isNotToken_eq, ha]

theorem accepts_method :
    Accepts ⟨.method, r, raw, path, ver, m, u, hs, b⟩ w q v ↔
      ∃ x t, w = x ++ (' ' : Byte) :: t ∧ (∀ c ∈ x, TokenByte c) ∧
        Accepts ⟨.uri, r, raw ++ x ++ str " ", path, ver, m ++ x, u, hs, b⟩ t q v := by
  have key := accepts_scan (w := w) (q := q) (v := v) (P := TokenByte) (e := ' ')
    (f := fun acc => ⟨.method, r, raw ++ acc, path, ver, m ++ acc, u, hs, b⟩)
    (g := fun acc => ⟨.uri, r, raw ++ acc ++ str " ", path, ver, m ++ acc, u, hs, b⟩)
    (fun acc a ha => by
      have hne : a ≠ ' ' := fun h => absurd (h ▸ ha) (by decide)
      simp [nextCharHandler, isNotToken_eq, ha, hne])
    (fun acc => by simp [nextCharHandler, str])
    (fun acc a ha hne => by simp [nextCharHandler, isNotToken_eq, ha, hne])
    (by decide)
  rwa [List.append_nil, List.append_nil] at key

/-- The blank that ends the URI needs a path; a byte of the URI is accumulated. -/
theorem accepts_uri :
    Accepts ⟨.uri, r, raw, path, ver, m, u, hs, b⟩ w q v ↔
      ∃ x t path', w = x ++ (' ' : Byte) :: t ∧ (∀ c ∈ x, UriByte c) ∧
        inferPath path (u ++ x) = some path' ∧
        Accepts ⟨.versionH, r, raw ++ x ++ str " ", path', ver, m, u ++ x, hs, b⟩ t q v := by
  have key := accepts_leave (w := w) (q := q) (v := v) (P := UriByte)
    (f := fun acc => ⟨.uri, r, raw ++ acc, path, ver, m, u ++ acc, hs, b⟩)
    (fun acc a ha => by simp [nextCharHandler, isControlChar_eq, ha.1, ha.2])
  rw [List.append_nil, List.append_nil] at key
  have hblank : ∀ acc path', inferPath path (u ++ acc) = some path' →
      nextCharHandler ⟨.uri, r, raw ++ acc, path, ver, m, u ++ acc, hs, b⟩ ' ' =
        some (.undefined, ⟨.versionH, r, raw ++ acc ++ str " ", path', ver, m, u ++ acc, hs, b⟩) := by
    intro acc path' h
    simp [nextCharHandler, h, str]
  rw [key]
  refine ⟨?_, ?_⟩
  · rintro ⟨x, a, t, rfl, hx, ha, h⟩
    by_cases hsp : a = ' '
    · subst hsp
      rcases hpath : inferPath path (u ++ x) with - | path'
      · refine absurd h (not_accepts_none ?_)
        simp [nextCharHandler, hpath]
      · exact ⟨x, t, path', rfl, hx, hpath, (accepts_undefined (hblank x path' hpath)).mp h⟩
    · have htext : ¬ TextByte a := fun ht => ha ⟨ht, hsp⟩
      refine absurd h (not_accepts_bad ?_)
      simp [nextCharHandler, isControlChar_eq, htext, hsp]
  · rintro ⟨x, t, path', rfl, hx, hpath, h⟩
    refine ⟨x, ' ', t, rfl, hx, by decide, ?_⟩
    exact (accepts_undefined (hblank x path' hpath)).mpr h

/-! ### Undecided runs up to the URI -/

theorem run_method (r : UInt64) {method : Bytes} (hne : method ≠ [])
    (htoken : ∀ c ∈ method, TokenByte c) (t : Bytes) :
    Reader.run step (init r) (method ++ str " " ++ t) =
      Reader.run step ⟨.uri, r, method ++ str " ", [], [], method, [], [], []⟩ t := by
  rcases method with - | ⟨a, x⟩
  · exact absurd rfl hne
  rw [List.forall_mem_cons] at htoken
  have hstart : step (init r) a = .more ⟨.method, r, [a], [], [], [a], [], [], []⟩ :=
    step_undefined (by simp [nextCharHandler, init, isNotToken_eq, htoken.1])
  have hkeep : ∀ (acc : Bytes) (c : Byte), TokenByte c →
      step ⟨.method, r, a :: acc, [], [], a :: acc, [], [], []⟩ c =
        .more ⟨.method, r, a :: (acc ++ [c]), [], [], a :: (acc ++ [c]), [], [], []⟩ := by
    intro acc c hc
    have hne : c ≠ ' ' := fun h => absurd (h ▸ hc) (by decide)
    exact step_undefined (by simp [nextCharHandler, isNotToken_eq, hc, hne])
  have hscan := Reader.run_scan
    (f := fun acc => (⟨.method, r, a :: acc, [], [], a :: acc, [], [], []⟩ : RequestParser)) hkeep [] htoken.2
    (str " " ++ t)
  have hblank : step ⟨.method, r, a :: x, [], [], a :: x, [], [], []⟩ ' ' =
      .more ⟨.uri, r, a :: x ++ str " ", [], [], a :: x, [], [], []⟩ := rfl
  rw [List.append_assoc, List.cons_append, Reader.run_more hstart]
  exact hscan.trans (Reader.run_more hblank t)

theorem run_uriBytes {x : Bytes} (hx : ∀ c ∈ x, UriByte c) (t : Bytes) :
    Reader.run step ⟨.uri, r, raw, path, ver, m, u, hs, b⟩ (x ++ t) =
      Reader.run step ⟨.uri, r, raw ++ x, path, ver, m, u ++ x, hs, b⟩ t := by
  have hkeep : ∀ (acc : Bytes) (c : Byte), UriByte c →
      step ⟨.uri, r, raw ++ acc, path, ver, m, u ++ acc, hs, b⟩ c =
        .more ⟨.uri, r, raw ++ (acc ++ [c]), path, ver, m, u ++ (acc ++ [c]), hs, b⟩ :=
    fun acc c hc => step_undefined (by simp [nextCharHandler, isControlChar_eq, hc.1, hc.2])
  have hscan := Reader.run_scan
    (f := fun acc => (⟨.uri, r, raw ++ acc, path, ver, m, u ++ acc, hs, b⟩ : RequestParser)) hkeep [] hx t
  rwa [List.append_nil, List.append_nil] at hscan

/-- The five letters `HTTP/`, one state each. -/
theorem accepts_versionH :
    Accepts ⟨.versionH, r, raw, path, ver, m, u, hs, b⟩ w q v ↔
      ∃ t, w = str "HTTP/" ++ t ∧
        Accepts ⟨.versionMajorStart, r, raw ++ str "HTTP/", path, ver ++ str "HTTP/", m, u, hs, b⟩
          t q v := by
  have h1 : ∀ w, Accepts ⟨.versionH, r, raw, path, ver, m, u, hs, b⟩ w q v ↔
      ∃ t, w = ('H' : Byte) :: t ∧
        Accepts ⟨.versionFirstT, r, raw ++ str "H", path, ver ++ str "H", m, u, hs, b⟩ t q v :=
    fun w => accepts_letter (by simp [nextCharHandler, str]) fun a ha => by simp [nextCharHandler, ha]
  have h2 : ∀ w, Accepts ⟨.versionFirstT, r, raw ++ str "H", path, ver ++ str "H", m, u, hs, b⟩ w q v ↔
      ∃ t, w = ('T' : Byte) :: t ∧
        Accepts ⟨.versionSecondT, r, raw ++ str "HT", path, ver ++ str "HT", m, u, hs, b⟩ t q v :=
    fun w => accepts_letter (by simp [nextCharHandler, str]) fun a ha => by simp [nextCharHandler, ha]
  have h3 : ∀ w, Accepts ⟨.versionSecondT, r, raw ++ str "HT", path, ver ++ str "HT", m, u, hs, b⟩ w q v ↔
      ∃ t, w = ('T' : Byte) :: t ∧
        Accepts ⟨.versionP, r, raw ++ str "HTT", path, ver ++ str "HTT", m, u, hs, b⟩ t q v :=
    fun w => accepts_letter (by simp [nextCharHandler, str]) fun a ha => by simp [nextCharHandler, ha]
  have h4 : ∀ w, Accepts ⟨.versionP, r, raw ++ str "HTT", path, ver ++ str "HTT", m, u, hs, b⟩ w q v ↔
      ∃ t, w = ('P' : Byte) :: t ∧
        Accepts ⟨.versionSlash, r, raw ++ str "HTTP", path, ver ++ str "HTTP", m, u, hs, b⟩ t q v :=
    fun w => accepts_letter (by simp [nextCharHandler, str]) fun a ha => by simp [nextCharHandler, ha]
  have h5 : ∀ w, Accepts ⟨.versionSlash, r, raw ++ str "HTTP", path, ver ++ str "HTTP", m, u, hs, b⟩ w q v ↔
      ∃ t, w = ('/' : Byte) :: t ∧
        Accepts ⟨.versionMajorStart, r, raw ++ str "HTTP/", path, ver ++ str "HTTP/", m, u, hs, b⟩ t q v :=
    fun w => accepts_letter (by simp [nextCharHandler, str]) fun a ha => by simp [nextCharHandler, ha]
  simp only [h1, h2, h3, h4, h5]
  refine ⟨?_, ?_⟩
  · rintro ⟨_, rfl, _, rfl, _, rfl, _, rfl, t, rfl, h⟩
    exact ⟨t, rfl, h⟩
  · rintro ⟨t, rfl, h⟩
    exact ⟨_, rfl, _, rfl, _, rfl, _, rfl, t, rfl, h⟩

theorem accepts_versionMajorStart :
    Accepts ⟨.versionMajorStart, r, raw, path, ver, m, u, hs, b⟩ w q v ↔
      ∃ a t, w = a :: t ∧ DigitByte a ∧
        Accepts ⟨.versionMajor, r, raw ++ [a], path, ver ++ [a], m, u, hs, b⟩ t q v := by
  refine accepts_byte (fun a ha => ?_) (fun a ha => ?_)
  · simp [nextCharHandler, isDigit_eq, ha]
  · simp [nextCharHandler, isDigit_eq, ha]

theorem accepts_versionMajor :
    Accepts ⟨.versionMajor, r, raw, path, ver, m, u, hs, b⟩ w q v ↔
      ∃ x t, w = x ++ ('.' : Byte) :: t ∧ (∀ c ∈ x, DigitByte c) ∧
        Accepts ⟨.versionMinorStart, r, raw ++ x ++ str ".", path, ver ++ x ++ str ".", m, u, hs, b⟩
          t q v := by
  have key := accepts_scan (w := w) (q := q) (v := v) (P := DigitByte) (e := '.')
    (f := fun acc => ⟨.versionMajor, r, raw ++ acc, path, ver ++ acc, m, u, hs, b⟩)
    (g := fun acc => ⟨.versionMinorStart, r, raw ++ acc ++ str ".", path, ver ++ acc ++ str ".",
      m, u, hs, b⟩)
    (fun acc a ha => by
      have hne : a ≠ '.' := fun h => absurd (h ▸ ha) (by decide)
      simp [nextCharHandler, isDigit_eq, ha, hne])
    (fun acc => by simp [nextCharHandler, str])
    (fun acc a ha hne => by simp [nextCharHandler, isDigit_eq, ha, hne])
    (by decide)
  rwa [List.append_nil, List.append_nil] at key

theorem accepts_versionMinorStart :
    Accepts ⟨.versionMinorStart, r, raw, path, ver, m, u, hs, b⟩ w q v ↔
      ∃ a t, w = a :: t ∧ DigitByte a ∧
        Accepts ⟨.versionMinor, r, raw ++ [a], path, ver ++ [a], m, u, hs, b⟩ t q v := by
  refine accepts_byte (fun a ha => ?_) (fun a ha => ?_)
  · simp [nextCharHandler, isDigit_eq, ha]
  · simp [nextCharHandler, isDigit_eq, ha]

/-- The digits of the minor version, up to the end of the request line. -/
theorem accepts_versionMinor :
    Accepts ⟨.versionMinor, r, raw, path, ver, m, u, hs, b⟩ w q v ↔
      ∃ x t, w = x ++ crlf ++ t ∧ (∀ c ∈ x, DigitByte c) ∧
        Accepts ⟨.headerStart, r, raw ++ x ++ crlf, path, ver ++ x, m, u, hs, b⟩ t q v := by
  have key := accepts_scan (w := w) (q := q) (v := v) (P := DigitByte) (e := '\r')
    (f := fun acc => ⟨.versionMinor, r, raw ++ acc, path, ver ++ acc, m, u, hs, b⟩)
    (g := fun acc => ⟨.newline1, r, raw ++ acc ++ str "\r", path, ver ++ acc, m, u, hs, b⟩)
    (fun acc a ha => by
      have hne : a ≠ '\r' := fun h => absurd (h ▸ ha) (by decide)
      simp [nextCharHandler, isDigit_eq, ha, hne])
    (fun acc => by simp [nextCharHandler, str])
    (fun acc a ha hne => by simp [nextCharHandler, isDigit_eq, ha, hne])
    (by decide)
  have hlf : ∀ x t, Accepts ⟨.newline1, r, raw ++ x ++ str "\r", path, ver ++ x, m, u, hs, b⟩ t q v ↔
      ∃ t', t = ('\n' : Byte) :: t' ∧
        Accepts ⟨.headerStart, r, raw ++ x ++ crlf, path, ver ++ x, m, u, hs, b⟩ t' q v := by
    intro x t
    refine accepts_letter ?_ (fun a ha => ?_)
    · simp [nextCharHandler, str, crlf]
    · simp [nextCharHandler, ha]
  rw [List.append_nil, List.append_nil] at key
  rw [key]
  simp only [hlf]
  refine ⟨?_, ?_⟩
  · rintro ⟨x, _, rfl, hx, t, rfl, h⟩
    exact ⟨x, t, by simp [crlf], hx, h⟩
  · rintro ⟨x, t, rfl, hx, h⟩
    exact ⟨x, _, by simp [crlf], hx, t, rfl, h⟩

/-! ## The headers, state by state -/

theorem accepts_newline2 :
    Accepts ⟨.newline2, r, raw, path, ver, m, u, hs, b⟩ w q v ↔
      ∃ t, w = ('\n' : Byte) :: t ∧
        Accepts ⟨.headerStart, r, raw ++ str "\n", path, ver, m, u, hs, b⟩ t q v := by
  refine accepts_letter ?_ (fun a ha => ?_)
  · simp [nextCharHandler, str]
  · simp [nextCharHandler, ha]

theorem accepts_headerName {n x : Bytes} :
    Accepts ⟨.headerName, r, raw, path, ver, m, u, hs ++ [(n, x)], b⟩ w q v ↔
      ∃ y t, w = y ++ str ": " ++ t ∧ (∀ c ∈ y, TokenByte c) ∧
        Accepts ⟨.headerValue, r, raw ++ y ++ str ": ", path, ver, m, u, hs ++ [(n ++ y, x)], b⟩
          t q v := by
  have key := accepts_scan (w := w) (q := q) (v := v) (P := TokenByte) (e := ':')
    (f := fun acc => ⟨.headerName, r, raw ++ acc, path, ver, m, u, hs ++ [(n ++ acc, x)], b⟩)
    (g := fun acc => ⟨.spaceBeforeHeaderValue, r, raw ++ acc ++ str ":", path, ver, m, u,
      hs ++ [(n ++ acc, x)], b⟩)
    (fun acc a ha => by
      have hne : a ≠ ':' := fun h => absurd (h ▸ ha) (by decide)
      simp [nextCharHandler, isNotToken_eq, ha, hne])
    (fun acc => by simp [nextCharHandler, str])
    (fun acc a ha hne => by simp [nextCharHandler, isNotToken_eq, ha, hne])
    (by decide)
  have hsp : ∀ y t, Accepts ⟨.spaceBeforeHeaderValue, r, raw ++ y ++ str ":", path, ver, m, u,
      hs ++ [(n ++ y, x)], b⟩ t q v ↔ ∃ t', t = (' ' : Byte) :: t' ∧
        Accepts ⟨.headerValue, r, raw ++ y ++ str ": ", path, ver, m, u, hs ++ [(n ++ y, x)], b⟩
          t' q v := by
    intro y t
    refine accepts_letter ?_ (fun a ha => ?_)
    · simp [nextCharHandler, str]
    · simp [nextCharHandler, ha]
  rw [List.append_nil, List.append_nil] at key
  simp only [key, hsp]
  refine ⟨?_, ?_⟩
  · rintro ⟨y, _, rfl, hy, t, rfl, h⟩
    exact ⟨y, t, by simp [str], hy, h⟩
  · rintro ⟨y, t, rfl, hy, h⟩
    exact ⟨y, _, by simp [str], hy, t, rfl, h⟩

theorem accepts_headerValue {n x : Bytes} :
    Accepts ⟨.headerValue, r, raw, path, ver, m, u, hs ++ [(n, x)], b⟩ w q v ↔
      ∃ y t, w = y ++ crlf ++ t ∧ (∀ c ∈ y, TextByte c) ∧
        Accepts ⟨.headerStart, r, raw ++ y ++ crlf, path, ver, m, u, hs ++ [(n, x ++ y)], b⟩
          t q v := by
  have key := accepts_scan (w := w) (q := q) (v := v) (P := TextByte) (e := '\r')
    (f := fun acc => ⟨.headerValue, r, raw ++ acc, path, ver, m, u, hs ++ [(n, x ++ acc)], b⟩)
    (g := fun acc => ⟨.newline2, r, raw ++ acc ++ str "\r", path, ver, m, u,
      hs ++ [(n, x ++ acc)], b⟩)
    (fun acc a ha => by
      have hne : a ≠ '\r' := fun h => absurd (h ▸ ha) (by decide)
      simp [nextCharHandler, isControlChar_eq, ha, hne])
    (fun acc => by simp [nextCharHandler, str])
    (fun acc a ha hne => by simp [nextCharHandler, isControlChar_eq, ha, hne])
    (by decide)
  rw [List.append_nil, List.append_nil] at key
  simp only [key, accepts_newline2]
  refine ⟨?_, ?_⟩
  · rintro ⟨y, _, rfl, hy, t, rfl, h⟩
    exact ⟨y, t, by simp [crlf], hy, by simpa [str, crlf] using h⟩
  · rintro ⟨y, t, rfl, hy, h⟩
    exact ⟨y, _, by simp [crlf], hy, t, rfl, by simpa [str, crlf] using h⟩

/-- A continuation line: its blanks are dropped, its text is added to the last value. -/
theorem accepts_headerLws {n x : Bytes} :
    Accepts ⟨.headerLws, r, raw, path, ver, m, u, hs ++ [(n, x)], b⟩ w q v ↔
      ∃ bl y t, w = bl ++ y ++ crlf ++ t ∧ (∀ c ∈ bl, BlankByte c) ∧ (∀ c ∈ y, TextByte c) ∧
        y.head? ≠ some (' ' : Byte) ∧
        Accepts ⟨.headerStart, r, raw ++ bl ++ y ++ crlf, path, ver, m, u, hs ++ [(n, x ++ y)], b⟩
          t q v := by
  have key := accepts_leave (w := w) (q := q) (v := v) (P := BlankByte)
    (f := fun acc => ⟨.headerLws, r, raw ++ acc, path, ver, m, u, hs ++ [(n, x)], b⟩)
    (fun acc a ha => by
      have hne : a ≠ '\r' := fun h => absurd (h ▸ ha) (by decide)
      have hbl : a = ' ' ∨ a = '\t' := ha
      simp [nextCharHandler, hne, hbl])
  rw [List.append_nil] at key
  have hcr : ∀ bl, nextCharHandler
      ⟨.headerLws, r, raw ++ bl, path, ver, m, u, hs ++ [(n, x)], b⟩ '\r' =
        some (.undefined, ⟨.newline2, r, raw ++ bl ++ str "\r", path, ver, m, u,
          hs ++ [(n, x)], b⟩) := by
    intro bl
    simp [nextCharHandler, str]
  have htext : ∀ bl a, ¬ BlankByte a → TextByte a → nextCharHandler
      ⟨.headerLws, r, raw ++ bl, path, ver, m, u, hs ++ [(n, x)], b⟩ a =
        some (.undefined, ⟨.headerValue, r, raw ++ bl ++ [a], path, ver, m, u,
          hs ++ [(n, x ++ [a])], b⟩) := by
    intro bl a hbl ha
    have hne : a ≠ '\r' := fun h => absurd (h ▸ ha) (by decide)
    have hbl' : ¬ (a = ' ' ∨ a = '\t') := hbl
    simp only [nextCharHandler, if_neg hne, if_neg hbl', isControlChar_eq]
    simp [ha]
  rw [key]
  refine ⟨?_, ?_⟩
  · rintro ⟨bl, a, t, rfl, hbl, ha, h⟩
    by_cases hne : a = '\r'
    · subst hne
      rw [accepts_undefined (hcr bl), accepts_newline2] at h
      obtain ⟨t', rfl, h⟩ := h
      refine ⟨bl, [], t', by simp [crlf], hbl, fun _ hc => absurd hc List.not_mem_nil, by simp, ?_⟩
      simpa [str, crlf] using h
    · by_cases hat : TextByte a
      · rw [accepts_undefined (htext bl a ha hat), accepts_headerValue] at h
        obtain ⟨y, t', rfl, hy, h⟩ := h
        refine ⟨bl, a :: y, t', by simp, hbl, List.forall_mem_cons.mpr ⟨hat, hy⟩, ?_, ?_⟩
        · intro hsp
          exact ha (Or.inl (Option.some.inj hsp))
        · simpa using h
      · have hbl' : ¬ (a = ' ' ∨ a = '\t') := ha
        refine absurd h (not_accepts_bad ?_)
        simp only [nextCharHandler, if_neg hne, if_neg hbl', isControlChar_eq]
        simp [hat]
  · rintro ⟨bl, y, t, rfl, hbl, hy, hhd, h⟩
    rcases y with - | ⟨a, y⟩
    · refine ⟨bl, '\r', ('\n' : Byte) :: t, by simp [crlf], hbl, by decide, ?_⟩
      rw [accepts_undefined (hcr bl), accepts_newline2]
      exact ⟨t, rfl, by simpa [str, crlf] using h⟩
    · rw [List.forall_mem_cons] at hy
      have ha : ¬ BlankByte a := by
        rintro (rfl | rfl)
        · exact hhd rfl
        · exact absurd hy.1 (by decide)
      refine ⟨bl, a, y ++ crlf ++ t, by simp, hbl, ha, ?_⟩
      rw [accepts_undefined (htext bl a ha hy.1), accepts_headerValue]
      exact ⟨y, t, by simp, hy.2, by simpa using h⟩

/-- At a line start: the end of the head, a continuation line, or a header's name. -/
theorem accepts_headerStart :
    Accepts ⟨.headerStart, r, raw, path, ver, m, u, hs, b⟩ w q v ↔
      (∃ t, w = ('\r' : Byte) :: t ∧
        Accepts ⟨.newline3, r, raw ++ str "\r", path, ver, m, u, hs, b⟩ t q v) ∨
      (hs ≠ [] ∧ ∃ a t, w = a :: t ∧ BlankByte a ∧
        Accepts ⟨.headerLws, r, raw ++ [a], path, ver, m, u, hs, b⟩ t q v) ∨
      (∃ a t, w = a :: t ∧ TokenByte a ∧
        Accepts ⟨.headerName, r, raw ++ [a], path, ver, m, u, hs ++ [([a], [])], b⟩ t q v) := by
  have hcr : nextCharHandler ⟨.headerStart, r, raw, path, ver, m, u, hs, b⟩ '\r' =
      some (.undefined, ⟨.newline3, r, raw ++ str "\r", path, ver, m, u, hs, b⟩) := by
    simp [nextCharHandler, str]
  have hlws : ∀ a, hs ≠ [] → BlankByte a →
      nextCharHandler ⟨.headerStart, r, raw, path, ver, m, u, hs, b⟩ a =
        some (.undefined, ⟨.headerLws, r, raw ++ [a], path, ver, m, u, hs, b⟩) := by
    intro a hne ha
    have hcr : a ≠ '\r' := fun h => absurd (h ▸ ha) (by decide)
    simp only [nextCharHandler, if_neg hcr]
    rw [if_pos ⟨hne, ha⟩]
  have hname : ∀ a, TokenByte a →
      nextCharHandler ⟨.headerStart, r, raw, path, ver, m, u, hs, b⟩ a =
        some (.undefined, ⟨.headerName, r, raw ++ [a], path, ver, m, u, hs ++ [([a], [])], b⟩) := by
    intro a ha
    have hcr : a ≠ '\r' := fun h => absurd (h ▸ ha) (by decide)
    have hbl : ¬ (a = ' ' ∨ a = '\t') := by
      rintro (rfl | rfl) <;> exact absurd ha (by decide)
    simp only [nextCharHandler, if_neg hcr, isNotToken_eq]
    rw [if_neg fun h => hbl h.2]
    simp [ha]
  refine ⟨fun h => ?_, ?_⟩
  · rcases w with - | ⟨a, t⟩
    · exact absurd h not_accepts_nil
    · by_cases ha : a = '\r'
      · subst ha
        exact Or.inl ⟨t, rfl, (accepts_undefined hcr).mp h⟩
      · by_cases hbl : hs ≠ [] ∧ BlankByte a
        · exact Or.inr (Or.inl ⟨hbl.1, a, t, rfl, hbl.2,
            (accepts_undefined (hlws a hbl.1 hbl.2)).mp h⟩)
        · by_cases htok : TokenByte a
          · exact Or.inr (Or.inr ⟨a, t, rfl, htok, (accepts_undefined (hname a htok)).mp h⟩)
          · have hbl' : ¬ (hs ≠ [] ∧ (a = ' ' ∨ a = '\t')) := hbl
            refine absurd h (not_accepts_bad ?_)
            simp only [nextCharHandler, if_neg ha, isNotToken_eq]
            rw [if_neg hbl']
            simp [htok]
  · rintro (⟨t, rfl, h⟩ | ⟨hne, a, t, rfl, ha, h⟩ | ⟨a, t, rfl, ha, h⟩)
    · exact (accepts_undefined hcr).mpr h
    · exact (accepts_undefined (hlws a hne ha)).mpr h
    · exact (accepts_undefined (hname a ha)).mpr h

/-! ## The end of the head, and the body -/

/-- The value of the first header named exactly `Content-Length`, or the empty string. -/
def lengthValue (hs : List (Bytes × Bytes)) : Bytes :=
  ((hs.find? fun h => h.1 == str "Content-Length").map Prod.snd).getD []

/-- The number of body bytes that the parser waits for after these headers. -/
def declaredLength (hs : List (Bytes × Bytes)) : Nat :=
  ((stoull (lengthValue hs)).map UInt64.toNat).getD 0

/-- The countdown takes exactly `remaining` bytes. -/
theorem accepts_body (hr : r ≠ 0) :
    Accepts ⟨.body, r, raw, path, ver, m, u, hs, b⟩ w q v ↔
      ∃ x, w = x ++ v ∧ x.length = r.toNat ∧
        q = ⟨.body, 0, raw ++ x, path, ver, m, u, hs, b ++ x⟩ := by
  obtain ⟨n, hn⟩ : ∃ n, r.toNat = n + 1 := by
    refine ⟨r.toNat - 1, ?_⟩
    have : r.toNat ≠ 0 := fun h => hr (UInt64.toNat_inj.mp h)
    omega
  induction n generalizing r raw b w with
  | zero =>
    have hr1 : r = 1 := UInt64.toNat_inj.mp hn
    subst hr1
    have hgood : ∀ a, nextCharHandler ⟨.body, 1, raw, path, ver, m, u, hs, b⟩ a =
        some (.good, ⟨.body, 0, raw ++ [a], path, ver, m, u, hs, b ++ [a]⟩) := by
      intro a
      simp [nextCharHandler]
    refine ⟨fun h => ?_, ?_⟩
    · rcases w with - | ⟨a, t⟩
      · exact absurd h not_accepts_nil
      · obtain ⟨rfl, rfl⟩ := (accepts_good (hgood a)).mp h
        exact ⟨[a], rfl, rfl, rfl⟩
    · rintro ⟨x, rfl, hx, rfl⟩
      obtain ⟨a, rfl⟩ := List.length_eq_one_iff.mp hx
      exact (accepts_good (hgood a)).mpr ⟨rfl, rfl⟩
  | succ n ih =>
    have hpos : r - 1 > 0 := by
      rw [gt_iff_lt, UInt64.lt_iff_toNat_lt, UInt64.toNat_sub_of_le _ _ (by
        rw [UInt64.le_iff_toNat_le, hn]; simp)]
      rw [hn]
      simp
    have hsub : (r - 1).toNat = n + 1 := by
      rw [UInt64.toNat_sub_of_le _ _ (by rw [UInt64.le_iff_toNat_le, hn]; simp), hn]
      simp
    have hstep : ∀ a, nextCharHandler ⟨.body, r, raw, path, ver, m, u, hs, b⟩ a =
        some (.undefined, ⟨.body, r - 1, raw ++ [a], path, ver, m, u, hs, b ++ [a]⟩) := by
      intro a
      simp [nextCharHandler, hpos]
    have hne : r - 1 ≠ 0 := fun h => by simp [h] at hpos
    refine ⟨fun h => ?_, ?_⟩
    · rcases w with - | ⟨a, t⟩
      · exact absurd h not_accepts_nil
      · rw [accepts_undefined (hstep a), ih hne hsub] at h
        obtain ⟨x, rfl, hx, rfl⟩ := h
        refine ⟨a :: x, rfl, ?_, ?_⟩
        · rw [List.length_cons, hx, hsub, hn]
        · simp
    · rintro ⟨x, rfl, hx, rfl⟩
      rcases x with - | ⟨a, x⟩
      · rw [hn] at hx
        cases hx
      · rw [List.cons_append, accepts_undefined (hstep a), ih hne hsub]
        refine ⟨x, rfl, ?_, ?_⟩
        · rw [hn, List.length_cons] at hx
          omega
        · simp

/-- The line feed that ends the head: the countdown starts, or the request is complete. -/
theorem next_newline3 :
    nextCharHandler ⟨.newline3, r, raw, path, ver, m, u, hs, b⟩ '\n' =
      match stoull (lengthValue hs) with
      | some n =>
        if n > 0 then some (.undefined, ⟨.body, n, raw ++ str "\n", path, ver, m, u, hs, b⟩)
        else some (.good, ⟨.newline3, n, raw ++ str "\n", path, ver, m, u, hs, b⟩)
      | none => some (.good, ⟨.newline3, r, raw ++ str "\n", path, ver, m, u, hs, b⟩) := by
  simp only [nextCharHandler, if_pos]
  rfl

/-- **The end of the head and the body**, as one rule: after the line feed exactly the
declared number of bytes is read. -/
theorem accepts_newline3 {req : Request} :
    (∃ q, Accepts ⟨.newline3, r, raw, path, ver, m, u, hs, []⟩ w q v ∧ q.toRequest = req) ↔
      ∃ x, w = ('\n' : Byte) :: (x ++ v) ∧ x.length = declaredLength hs ∧
        req = toRequest ⟨.newline3, r, raw, path, ver, m, u, hs, x⟩ := by
  have hlf : ∀ q, Accepts ⟨.newline3, r, raw, path, ver, m, u, hs, []⟩ w q v →
      ∃ t, w = ('\n' : Byte) :: t := by
    intro q h
    rcases w with - | ⟨a, t⟩
    · exact absurd h not_accepts_nil
    · by_cases ha : a = '\n'
      · exact ⟨t, by rw [ha]⟩
      · refine absurd h (not_accepts_bad ?_)
        simp [nextCharHandler, ha]
  -- the request is complete at the line feed when no positive length is declared
  have hempty : ∀ r', nextCharHandler ⟨.newline3, r, raw, path, ver, m, u, hs, []⟩ '\n' =
      some (.good, ⟨.newline3, r', raw ++ str "\n", path, ver, m, u, hs, []⟩) →
      declaredLength hs = 0 →
      ((∃ q, Accepts ⟨.newline3, r, raw, path, ver, m, u, hs, []⟩ w q v ∧ q.toRequest = req) ↔
        ∃ x, w = ('\n' : Byte) :: (x ++ v) ∧ x.length = declaredLength hs ∧
          req = toRequest ⟨.newline3, r, raw, path, ver, m, u, hs, x⟩) := by
    intro r' hgood hlen
    refine ⟨?_, ?_⟩
    · rintro ⟨q, h, rfl⟩
      obtain ⟨t, rfl⟩ := hlf q h
      obtain ⟨rfl, rfl⟩ := (accepts_good hgood).mp h
      exact ⟨[], rfl, hlen.symm, rfl⟩
    · rintro ⟨x, rfl, hx, rfl⟩
      obtain rfl : x = [] := List.eq_nil_of_length_eq_zero (hx.trans hlen)
      exact ⟨_, (accepts_good hgood).mpr ⟨rfl, rfl⟩, rfl⟩
  have hnext : nextCharHandler ⟨.newline3, r, raw, path, ver, m, u, hs, []⟩ '\n' = _ := next_newline3
  rcases hl : stoull (lengthValue hs) with - | n
  · rw [hl] at hnext
    exact hempty r hnext (by rw [declaredLength, hl]; rfl)
  · have hlen : declaredLength hs = n.toNat := by rw [declaredLength, hl]; rfl
    rw [hl] at hnext
    by_cases hn : n > 0
    · simp only [if_pos hn] at hnext
      have hne : n ≠ 0 := fun h => by simp [h] at hn
      refine ⟨?_, ?_⟩
      · rintro ⟨q, h, rfl⟩
        obtain ⟨t, rfl⟩ := hlf q h
        rw [accepts_undefined hnext, accepts_body hne] at h
        obtain ⟨x, rfl, hx, rfl⟩ := h
        exact ⟨x, rfl, hx.trans hlen.symm, rfl⟩
      · rintro ⟨x, rfl, hx, rfl⟩
        refine ⟨_, (accepts_undefined hnext).mpr ((accepts_body hne).mpr
          ⟨x, rfl, hx.trans hlen, rfl⟩), rfl⟩
    · simp only [if_neg hn] at hnext
      have h0 : n = 0 := by
        rw [gt_iff_lt, UInt64.not_lt] at hn
        exact UInt64.le_zero_iff.mp hn
      exact hempty n hnext (by rw [hlen, h0]; rfl)

end States

end RequestParser

end LowKeyWebServer
