import LowKeyWebServer.ParserIndices

/-!
# The representation invariant of the request parser

What the state of the automaton says about its accumulators: which part of a version has been
read, that the header whose text comes next is there, and how many characters of the body are
still to come. `RepInv` is kept by every character that is read on (`RepInv.next`), whatever is
stored as the path, and `repInv_run` has it all along every run of `Parse`.
-/

namespace LowKeyWebServer

/-! ## Versions -/

/-- The two numbers of a version. -/
structure HttpVersion : Type where
  /-- the major version number -/
  major : Bytes
  /-- the minor version number -/
  minor : Bytes
  /-- the major version is not empty -/
  major_ne : major ≠ []
  /-- the major version is a number -/
  major_digit : ∀ b ∈ major, DigitByte b
  /-- the minor version is not empty -/
  minor_ne : minor ≠ []
  /-- the minor version is a number -/
  minor_digit : ∀ b ∈ minor, DigitByte b

namespace HttpVersion

/-- `HTTP/digits.digits`. -/
def text (v : HttpVersion) : Bytes := str "HTTP/" ++ v.major ++ str "." ++ v.minor

/-- What has been read of the version in a state. -/
def upTo (v : HttpVersion) : RequestParser.State → Bytes
  | .methodStart | .method | .uri | .versionH => []
  | .versionFirstT => str "H"
  | .versionSecondT => str "HT"
  | .versionP => str "HTT"
  | .versionSlash => str "HTTP"
  | .versionMajorStart => str "HTTP/"
  | .versionMajor => str "HTTP/" ++ v.major
  | .versionMinorStart => str "HTTP/" ++ v.major ++ str "."
  | _ => v.text

theorem upTo_prefix (v : HttpVersion) (st : RequestParser.State) : v.upTo st <+: v.text := by
  have hhead : str "HTTP/" <+: v.text := by
    rw [text, List.append_assoc, List.append_assoc]
    exact List.prefix_append _ _
  cases st
  case versionMajor =>
    rw [text, List.append_assoc]
    exact List.prefix_append _ _
  case versionMinorStart => exact List.prefix_append _ _
  case versionFirstT => exact (List.prefix_append (str "H") (str "TTP/")).trans hhead
  case versionSecondT => exact (List.prefix_append (str "HT") (str "TP/")).trans hhead
  case versionP => exact (List.prefix_append (str "HTT") (str "P/")).trans hhead
  case versionSlash => exact (List.prefix_append (str "HTTP") (str "/")).trans hhead
  case versionMajorStart => exact hhead
  case methodStart | method | uri | versionH => exact List.nil_prefix
  all_goals exact List.prefix_rfl

/-- The version of one digit each. -/
def ofDigits (d e : Byte) (hd : DigitByte d) (he : DigitByte e) : HttpVersion where
  major := [d]
  minor := [e]
  major_ne := List.cons_ne_nil _ _
  major_digit := List.forall_mem_singleton.mpr hd
  minor_ne := List.cons_ne_nil _ _
  minor_digit := List.forall_mem_singleton.mpr he

/-- Another digit of the major version. -/
def addMajor (v : HttpVersion) (d : Byte) (hd : DigitByte d) : HttpVersion where
  major := v.major ++ [d]
  minor := v.minor
  major_ne := List.append_ne_nil_of_left_ne_nil v.major_ne _
  major_digit := List.forall_mem_append.mpr ⟨v.major_digit, List.forall_mem_singleton.mpr hd⟩
  minor_ne := v.minor_ne
  minor_digit := v.minor_digit

/-- The first digit of the minor version. -/
def setMinor (v : HttpVersion) (d : Byte) (hd : DigitByte d) : HttpVersion where
  major := v.major
  minor := [d]
  major_ne := v.major_ne
  major_digit := v.major_digit
  minor_ne := List.cons_ne_nil _ _
  minor_digit := List.forall_mem_singleton.mpr hd

/-- Another digit of the minor version. -/
def addMinor (v : HttpVersion) (d : Byte) (hd : DigitByte d) : HttpVersion where
  major := v.major
  minor := v.minor ++ [d]
  major_ne := v.major_ne
  major_digit := v.major_digit
  minor_ne := List.append_ne_nil_of_left_ne_nil v.minor_ne _
  minor_digit := List.forall_mem_append.mpr ⟨v.minor_digit, List.forall_mem_singleton.mpr hd⟩

end HttpVersion

namespace RequestParser

/-! ## The invariant -/

/-- The states in which the last header is under way. -/
def InHeader : State → Prop
  | .headerLws | .headerName | .spaceBeforeHeaderValue | .headerValue | .newline2 => True
  | _ => False

/-- What the state says about the accumulators. -/
structure RepInv (p : RequestParser) : Prop where
  /-- a header under way is the last one -/
  headers : InHeader p.state → p.headers ≠ []
  /-- no header is without a name -/
  names : ∀ h ∈ p.headers, h.1 ≠ []
  /-- the characters of the body and those to come are as many as the headers declare -/
  remaining : p.state = .body → 1 ≤ p.remaining.toNat ∧
    ∃ n, stoull (p.getHeaderValue (str "Content-Length")) = some n ∧
      p.body.length + p.remaining.toNat = n.toNat
  /-- before the body there is nothing of it -/
  body : p.state ≠ .body → p.body = []
  /-- the version is read up to the state -/
  version : ∃ v : HttpVersion, p.version = v.upTo p.state

variable {p p' : RequestParser} {a : Byte}

theorem repInv_init (r : UInt64) : RepInv (init r) where
  headers := False.elim
  names := fun _ h => absurd h List.not_mem_nil
  remaining := fun h => by cases h
  body := fun _ => rfl
  version := ⟨.ofDigits '1' '1' (by decide) (by decide), rfl⟩

/-- The countdown does not wrap. -/
theorem RepInv.remaining_pred (hp : RepInv p) (hstate : p.state = .body) :
    (p.remaining - 1).toNat + 1 = p.remaining.toNat := by
  have hle := (hp.remaining hstate).1
  have hsub : (p.remaining - 1).toNat = p.remaining.toNat - (1 : UInt64).toNat :=
    UInt64.toNat_sub_of_le _ _ (UInt64.le_iff_toNat_le.mpr hle)
  rw [hsub, UInt64.toNat_one, Nat.sub_add_cancel hle]

/-! ## One character -/

/-- A step between two states before the body that leaves the headers. -/
theorem RepInv.move (hp : RepInv p) (hstate : p.state ≠ .body) (hstate' : p'.state ≠ .body)
    (hheaders : p'.headers = p.headers) (hbody : p'.body = p.body)
    (hin : InHeader p'.state → p.headers ≠ [])
    (hversion : ∃ v : HttpVersion, p'.version = v.upTo p'.state) : RepInv p' where
  headers := fun h => by rw [hheaders]; exact hin h
  names := by rw [hheaders]; exact hp.names
  remaining := fun h => absurd h hstate'
  body := fun _ => by rw [hbody]; exact hp.body hstate
  version := hversion

/-- A step between two states before the body that changes the headers. -/
theorem RepInv.setHeaders (hp : RepInv p) (hstate : p.state ≠ .body) (hstate' : p'.state ≠ .body)
    (hheaders : p'.headers ≠ []) (hnames : ∀ h ∈ p'.headers, h.1 ≠ []) (hbody : p'.body = p.body)
    (hversion : ∃ v : HttpVersion, p'.version = v.upTo p'.state) : RepInv p' where
  headers := fun _ => hheaders
  names := hnames
  remaining := fun h => absurd h hstate'
  body := fun _ => by rw [hbody]; exact hp.body hstate
  version := hversion

/-- A change of the last header that keeps its name non-empty. -/
theorem modifyBack_names {f : Bytes × Bytes → Bytes × Bytes} (hf : ∀ h, h.1 ≠ [] → (f h).1 ≠ [])
    {hs hs' : List (Bytes × Bytes)} (hnames : ∀ h ∈ hs, h.1 ≠ []) (h : modifyBack f hs = some hs') :
    ∀ h ∈ hs', h.1 ≠ [] := by
  rcases List.eq_nil_or_concat hs with rfl | ⟨init, last, rfl⟩
  · cases h
  · rw [List.concat_eq_append, modifyBack_concat] at h
    obtain rfl := Option.some.inj h
    rw [List.concat_eq_append, List.forall_mem_append, List.forall_mem_singleton] at hnames
    rw [List.forall_mem_append, List.forall_mem_singleton]
    exact ⟨hnames.1, hf last hnames.2⟩

/-- A step that adds to the last header. -/
theorem RepInv.changeBack (hp : RepInv p) (hstate : p.state ≠ .body) (hstate' : p'.state ≠ .body)
    {f : Bytes × Bytes → Bytes × Bytes} (hback : modifyBack f p.headers = some p'.headers)
    (hf : ∀ h, h.1 ≠ [] → (f h).1 ≠ []) (hbody : p'.body = p.body)
    (hversion : ∃ v : HttpVersion, p'.version = v.upTo p'.state) : RepInv p' :=
  hp.setHeaders hstate hstate' (modifyBack_ne_nil hback) (modifyBack_names hf hp.names hback) hbody
    hversion

/-- **One character keeps the invariant.** -/
theorem RepInv.next (hp : RepInv p) (h : nextCharHandler p a = some (.undefined, p')) :
    RepInv p' := by
  obtain ⟨v, hv⟩ := hp.version
  obtain ⟨st, r, raw, path, ver, m, u, hs, b⟩ := p
  obtain rfl : ver = v.upTo st := hv
  cases st <;> simp only [nextCharHandler] at h
  case methodStart =>
    split at h
    · cases h
    · cases h
      exact hp.move (by simp) (by simp) rfl rfl False.elim ⟨v, rfl⟩
  case method =>
    split at h
    · cases h
      exact hp.move (by simp) (by simp) rfl rfl False.elim ⟨v, rfl⟩
    · split at h
      · cases h
      · cases h
        exact hp.move (by simp) (by simp) rfl rfl False.elim ⟨v, rfl⟩
  case uri =>
    split at h
    · obtain ⟨path', -, heq⟩ := Option.map_eq_some_iff.mp h
      cases heq
      exact hp.move (by simp) (by simp) rfl rfl False.elim ⟨v, rfl⟩
    · split at h
      · cases h
      · cases h
        exact hp.move (by simp) (by simp) rfl rfl False.elim ⟨v, rfl⟩
  case versionMajorStart =>
    split at h
    · next hdigit =>
      cases h
      rw [isDigit_eq, decide_eq_true_iff] at hdigit
      exact hp.move (by simp) (by simp) rfl rfl False.elim ⟨.ofDigits a a hdigit hdigit, rfl⟩
    · cases h
  case versionMajor =>
    split at h
    · cases h
      exact hp.move (by simp) (by simp) rfl rfl False.elim ⟨v, rfl⟩
    · split at h
      · next hdigit =>
        cases h
        rw [isDigit_eq, decide_eq_true_iff] at hdigit
        exact hp.move (by simp) (by simp) rfl rfl False.elim
          ⟨v.addMajor a hdigit, List.append_assoc _ _ _⟩
      · cases h
  case versionMinorStart =>
    split at h
    · next hdigit =>
      cases h
      rw [isDigit_eq, decide_eq_true_iff] at hdigit
      exact hp.move (by simp) (by simp) rfl rfl False.elim ⟨v.setMinor a hdigit, rfl⟩
    · cases h
  case versionMinor =>
    split at h
    · cases h
      exact hp.move (by simp) (by simp) rfl rfl False.elim ⟨v, rfl⟩
    · split at h
      · next hdigit =>
        cases h
        rw [isDigit_eq, decide_eq_true_iff] at hdigit
        exact hp.move (by simp) (by simp) rfl rfl False.elim
          ⟨v.addMinor a hdigit, List.append_assoc _ _ _⟩
      · cases h
  case headerStart =>
    split at h
    · cases h
      exact hp.move (by simp) (by simp) rfl rfl False.elim ⟨v, rfl⟩
    · split at h
      · next hblank =>
        cases h
        exact hp.move (by simp) (by simp) rfl rfl (fun _ => hblank.1) ⟨v, rfl⟩
      · split at h
        · cases h
        · cases h
          refine hp.setHeaders (by simp) (by simp) ?_ ?_ rfl ⟨v, rfl⟩
          · exact List.append_ne_nil_of_right_ne_nil _ (List.cons_ne_nil _ _)
          · exact List.forall_mem_append.mpr
              ⟨hp.names, List.forall_mem_singleton.mpr (List.cons_ne_nil _ _)⟩
  case headerLws =>
    split at h
    · cases h
      exact hp.move (by simp) (by simp) rfl rfl (fun _ => hp.headers trivial) ⟨v, rfl⟩
    · split at h
      · cases h
        exact hp.move (by simp) (by simp) rfl rfl (fun _ => hp.headers trivial) ⟨v, rfl⟩
      · split at h
        · cases h
        · obtain ⟨hs', hback, heq⟩ := Option.map_eq_some_iff.mp h
          cases heq
          exact hp.changeBack (by simp) (by simp) hback (fun _ hne => hne) rfl ⟨v, rfl⟩
  case headerName =>
    split at h
    · cases h
      exact hp.move (by simp) (by simp) rfl rfl (fun _ => hp.headers trivial) ⟨v, rfl⟩
    · split at h
      · cases h
      · obtain ⟨hs', hback, heq⟩ := Option.map_eq_some_iff.mp h
        cases heq
        exact hp.changeBack (by simp) (by simp) hback
          (fun _ hne => List.append_ne_nil_of_left_ne_nil hne _) rfl ⟨v, rfl⟩
  case headerValue =>
    split at h
    · cases h
      exact hp.move (by simp) (by simp) rfl rfl (fun _ => hp.headers trivial) ⟨v, rfl⟩
    · split at h
      · cases h
      · obtain ⟨hs', hback, heq⟩ := Option.map_eq_some_iff.mp h
        cases heq
        exact hp.changeBack (by simp) (by simp) hback (fun _ hne => hne) rfl ⟨v, rfl⟩
  case spaceBeforeHeaderValue =>
    split at h
    · cases h
      exact hp.move (by simp) (by simp) rfl rfl (fun _ => hp.headers trivial) ⟨v, rfl⟩
    · cases h
  case newline3 =>
    have hbody : b = [] := hp.body (by simp)
    split at h
    · split at h
      · next n hlength =>
        split at h
        · next hpos =>
          cases h
          refine ⟨False.elim, hp.names, fun _ => ⟨UInt64.lt_iff_toNat_lt.mp hpos, n, hlength, ?_⟩,
            fun hno => absurd rfl hno, v, rfl⟩
          rw [hbody, List.length_nil, Nat.zero_add]
        · cases h
      · cases h
    · cases h
  case body =>
    obtain ⟨hle, n, hlength, hcount⟩ := hp.remaining rfl
    have hpred := hp.remaining_pred rfl
    split at h
    · next hpos =>
      cases h
      refine ⟨False.elim, hp.names, fun _ => ⟨UInt64.lt_iff_toNat_lt.mp hpos, n, hlength, ?_⟩,
        fun hno => absurd rfl hno, v, rfl⟩
      rw [List.length_append, List.length_singleton]
      dsimp only at hpred hcount ⊢
      omega
    · cases h
  all_goals
    -- one letter of the version, or a line feed
    split at h
    · cases h
      exact hp.move (by simp) (by simp) rfl rfl False.elim ⟨v, rfl⟩
    · cases h

/-! ## Runs of `Parse` -/

/-- Every state in which a call reads on has the invariant. -/
theorem RepInv.pending {s : Bytes} (hp : RepInv p) (h : Reader.run step p s = .pending p') :
    RepInv p' := by
  have hstep : ∀ (_ : Bytes) (q : RequestParser) (a : Byte) (q' : RequestParser), RepInv q →
      step q a = .more q' → RepInv q' := fun _ _ _ _ hq hmore => hq.next (next_of_more hmore)
  exact Reader.pending_rule hstep [] hp h

/-- A call leaves a parser with the invariant: where the input ends, or reset. -/
theorem RepInv.call {x : Request × Bytes} (hp : RepInv p) (h : p.call x = some p') : RepInv p' := by
  obtain ⟨out, hout, rfl⟩ := Option.map_eq_some_iff.mp h
  by_cases hundefined : out.result = .undefined
  · exact hp.pending (pending_of_parse hout hundefined)
  · rw [fresh_of_parse hout hundefined]
    exact repInv_init _

/-- **The representation invariant**: in every run of `Parse`, from any value in the memory of
`remaining`, it holds between the calls and after every character that a call reads on; the
countdown does not wrap, and the version is a prefix of `HTTP/digits.digits`. -/
theorem repInv_run (r : UInt64) (calls : List (Request × Bytes)) :
    ∀ e ∈ Machine.trace call (init r) calls, ∀ u v q, e.2.2 = u ++ v →
      Reader.run step e.1 u = .pending q →
      RepInv q ∧ (q.state = .body → (q.remaining - 1).toNat + 1 = q.remaining.toNat) ∧
        ∃ t : HttpVersion, q.version <+: t.text := by
  have hinv : ∀ e ∈ Machine.trace call (init r) calls, RepInv e.1 :=
    Machine.forall_trace (fun _ => True) (fun _ _ _ hp _ hcall => hp.call hcall) (repInv_init r)
      fun _ _ => trivial
  intro e he u v q _ hrun
  have hq := (hinv e he).pending hrun
  obtain ⟨t, ht⟩ := hq.version
  exact ⟨hq, hq.remaining_pred, t, by rw [ht]; exact t.upTo_prefix q.state⟩

/-- Two of five characters of a body. -/
def twoOfFive : Bytes := str "POST / HTTP/1.1\r\nContent-Length: 5\r\n\r\nab"

/-- The theorem in the middle of a body, whatever the counter was before. -/
theorem repInv_twoOfFive : ∃ q, Reader.run step (init 7) twoOfFive = .pending q ∧
    q.state = .body ∧ q.remaining = 3 ∧ RepInv q := by
  have hread : (Reader.run step (init 7) twoOfFive).state.map (fun q => (q.state, q.remaining)) =
      some (.body, 3) := by decide +kernel
  obtain ⟨q, hq, hbody⟩ := Option.map_eq_some_iff.mp hread
  obtain ⟨hstate, hthree⟩ := Prod.mk.inj hbody
  have hrun := Reader.Outcome.state_eq_some.mp hq
  have hinv := repInv_run 7 [(.cleared, twoOfFive)] (init 7, .cleared, twoOfFive)
    List.mem_cons_self twoOfFive [] q (List.append_nil _).symm hrun
  exact ⟨q, hrun, hstate, hthree, hinv.1⟩

end RequestParser

end LowKeyWebServer
