import LowKeyWebServer.RequestParserCorrect
import LowKeyWebServer.Utils

/-!
# The two checks of a request

A request is checked line by line with regular expressions (`check_request`), and then parsed
character by character. `parses_iff` says on which of the checked requests the parser does not
fail: the regular expressions let through control characters, further blanks in the request
line, names with brackets, and a colon without a blank behind it.
-/

namespace LowKeyWebServer

namespace Utils

open Regex RequestParser

/-! ## What a checked line looks like -/

theorem digitByte_of_range {a b : Byte} (ha : '0' ≤ a) (hb : b ≤ '9') {w : Bytes}
    (h : w ∈ (range a b).language) : ∃ d, w = [d] ∧ DigitByte d := by
  obtain ⟨d, hd, rfl⟩ := h
  rw [Bool.and_eq_true, decide_eq_true_iff, decide_eq_true_iff] at hd
  exact ⟨d, rfl, UInt8.le_trans ha hd.1, UInt8.le_trans hd.2 hb⟩

/-- The version behind its blanks. -/
theorem mem_versionPattern {w : Bytes} (h : w ∈ versionPattern.language) :
    ∃ ws d e, w = ws ++ (str "HTTP/" ++ [d] ++ str "." ++ [e]) ++ crlf ∧ ws ≠ [] ∧
      (∀ b ∈ ws, isSpace b = true) ∧ DigitByte d ∧ DigitByte e := by
  obtain ⟨ws, _, rfl, hws, h⟩ := mem_seq_cons.mp h
  obtain ⟨_, _, rfl, hhttp, h⟩ := mem_seq_cons.mp h
  obtain ⟨_, _, rfl, hmajor, h⟩ := mem_seq_cons.mp h
  obtain ⟨_, _, rfl, hdot, h⟩ := mem_seq_cons.mp h
  obtain ⟨_, _, rfl, hminor, h⟩ := mem_seq_cons.mp h
  obtain ⟨_, _, rfl, hend, h⟩ := mem_seq_cons.mp h
  obtain rfl := mem_seq_nil.mp h
  obtain rfl := mem_word.mp hhttp
  obtain rfl := mem_word.mp hdot
  obtain rfl := mem_word.mp hend
  obtain ⟨d, rfl, hd⟩ := digitByte_of_range (by decide) (by decide) hmajor
  obtain ⟨e, rfl, he⟩ := digitByte_of_range (by decide) (by decide) hminor
  obtain ⟨hne, hspace⟩ := mem_plus_cls.mp hws
  exact ⟨ws, d, e, by simp, hne, hspace, hd, he⟩

/-- A method, a target and a version, with space between them. -/
def LineShape (l : Bytes) : Prop :=
  ∃ (method : Bytes) (sp : Byte) (target ws : Bytes) (d e : Byte),
    l = method ++ sp :: (target ++ ws ++ (str "HTTP/" ++ [d] ++ str "." ++ [e])) ∧
      method ≠ [] ∧ (∀ b ∈ method, TokenByte b) ∧ isSpace sp = true ∧ target ≠ [] ∧ ws ≠ [] ∧
      (∀ b ∈ ws, isSpace b = true) ∧ DigitByte d ∧ DigitByte e

theorem tokenByte_of_letter (b : Byte) :
    (('A' ≤ b && b ≤ 'Z') || ('a' ≤ b && b ≤ 'z')) = true → TokenByte b := by
  revert b
  exact forall_byte (by decide +kernel)

theorem tokenByte_of_upper (b : Byte) (h : ('A' ≤ b && b ≤ 'Z') = true) : TokenByte b :=
  tokenByte_of_letter b (by rw [h, Bool.true_or])

/-- The parts that the two patterns of a request line have in common. -/
theorem lineShape_of_mem {method sp target rest l : Bytes} {p : Byte → Bool}
    (hp : ∀ b, p b = true → TokenByte b) (hl : l ++ crlf = method ++ (sp ++ (target ++ rest)))
    (hmethod : method ∈ (plus (cls p)).language) (hsp : sp ∈ space.language) (htarget : target ≠ [])
    (hrest : rest ∈ versionPattern.language) : LineShape l := by
  obtain ⟨ws, d, e, rfl, hws, hspace, hd, he⟩ := mem_versionPattern hrest
  obtain ⟨b, hb, rfl⟩ := hsp
  obtain ⟨hne, hclass⟩ := mem_plus_cls.mp hmethod
  refine ⟨method, b, target, ws, d, e, List.append_cancel_right (hl.trans ?_), hne,
    fun c hc => hp c (hclass c hc), hb, htarget, hws, hspace, hd, he⟩
  simp

/-- **What a checked request line looks like.** -/
theorem lineShape_of_check {l : Bytes} (h : checkRequestLine (l ++ crlf) = true) : LineShape l := by
  rw [checkRequestLine, Bool.or_eq_true, isMatch_iff, isMatch_iff] at h
  rcases h with h | h
  · obtain ⟨method, _, hl, hmethod, h⟩ := mem_seq_cons.mp h
    obtain ⟨sp, _, rfl, hsp, h⟩ := mem_seq_cons.mp h
    obtain ⟨slash, _, rfl, hslash, h⟩ := mem_seq_cons.mp h
    obtain ⟨more, _, rfl, -, h⟩ := mem_seq_cons.mp h
    obtain ⟨version, _, rfl, hversion, h⟩ := mem_seq_cons.mp h
    obtain rfl := mem_seq_nil.mp h
    obtain rfl := mem_word.mp hslash
    have hne : str "/" ++ more ≠ [] := List.cons_ne_nil _ _
    have hparts : l ++ crlf = method ++ (sp ++ (str "/" ++ more ++ version)) := by
      rw [hl]
      simp
    exact lineShape_of_mem tokenByte_of_upper hparts hmethod hsp hne hversion
  · obtain ⟨method, _, hl, hmethod, h⟩ := mem_seq_cons.mp h
    obtain ⟨sp, _, rfl, hsp, h⟩ := mem_seq_cons.mp h
    obtain ⟨scheme, _, rfl, -, h⟩ := mem_seq_cons.mp h
    obtain ⟨domains, _, rfl, -, h⟩ := mem_seq_cons.mp h
    obtain ⟨host, _, rfl, hhost, h⟩ := mem_seq_cons.mp h
    obtain ⟨slash, _, rfl, -, h⟩ := mem_seq_cons.mp h
    obtain ⟨more, _, rfl, -, h⟩ := mem_seq_cons.mp h
    obtain ⟨version, _, rfl, hversion, h⟩ := mem_seq_cons.mp h
    obtain rfl := mem_seq_nil.mp h
    have hne : scheme ++ domains ++ host ++ slash ++ more ≠ [] := by
      have hhost_ne := (mem_plus_cls.mp hhost).1
      simp [hhost_ne]
    have hparts : l ++ crlf =
        method ++ (sp ++ (scheme ++ domains ++ host ++ slash ++ more ++ version)) := by
      rw [hl]
      simp
    exact lineShape_of_mem tokenByte_of_letter hparts hmethod hsp hne hversion

end Utils

namespace RequestParser

open Utils Regex

/-! ## Plain requests -/

/-- A request line without control characters, and with two blanks. -/
def PlainLine (l : Bytes) : Prop := (∀ b ∈ l, TextByte b) ∧ l.count (' ' : Byte) = 2

/-- Header lines up to the empty one: names of token characters, a colon and a blank, and
values without control characters. -/
inductive PlainHeaders : Bytes → Prop where
  /-- the empty line, and what follows the head -/
  | empty (rest : Bytes) : PlainHeaders (crlf ++ rest)
  /-- a header line -/
  | header {name value rest : Bytes} : name ≠ [] → (∀ b ∈ name, TokenByte b) →
      (∀ b ∈ value, TextByte b) → PlainHeaders rest →
      PlainHeaders (name ++ str ": " ++ value ++ crlf ++ rest)

/-- The head of a request, line by line. -/
def PlainHead (s : Bytes) : Prop :=
  ∃ line rest, s = line ++ crlf ++ rest ∧ PlainLine line ∧ PlainHeaders rest

theorem blank_of_space {b : Byte} (hspace : isSpace b = true) (htext : TextByte b) : b = ' ' := by
  rw [isSpace, Bool.or_eq_true, beq_iff_eq, Bool.and_eq_true, decide_eq_true_iff,
    decide_eq_true_iff] at hspace
  rcases hspace with h | ⟨-, h⟩
  · exact h
  · exact absurd (Or.inl (UInt8.le_trans h (by decide))) htext

theorem tokenByte_text {b : Byte} (h : TokenByte b) : TextByte b ∧ b ≠ ' ' := by
  obtain ⟨hlow, hhigh, hsep⟩ := h
  refine ⟨?_, ?_⟩
  · rintro (h | rfl)
    · exact absurd (UInt8.le_trans hlow h) (by decide)
    · exact absurd hhigh (by decide)
  · rintro rfl
    exact hsep (by decide)

theorem digitByte_text {b : Byte} (h : DigitByte b) : TextByte b ∧ b ≠ ' ' := by
  obtain ⟨hlow, hhigh⟩ := h
  refine ⟨?_, ?_⟩
  · rintro (h | rfl)
    · exact absurd (UInt8.le_trans hlow h) (by decide)
    · exact absurd hhigh (by decide)
  · rintro rfl
    exact absurd hlow (by decide)

theorem count_blank_http : (str "HTTP/").count (' ' : Byte) = 0 := by decide

theorem count_blank_dot : (str ".").count (' ' : Byte) = 0 := by decide

/-- The version has no blank. -/
theorem count_version {d e : Byte} (hd : DigitByte d) (he : DigitByte e) :
    (str "HTTP/" ++ [d] ++ str "." ++ [e]).count (' ' : Byte) = 0 := by
  have hd' := (digitByte_text hd).2
  have he' := (digitByte_text he).2
  simp [List.count_append, count_blank_http, count_blank_dot, hd', he']

theorem count_blank_of_token {w : Bytes} (h : ∀ b ∈ w, TokenByte b) : w.count (' ' : Byte) = 0 :=
  List.count_eq_zero.mpr fun hmem => (tokenByte_text (h _ hmem)).2 rfl

/-- A checked line that is plain is a request line of the grammar. -/
theorem plain_of_lineShape {l : Bytes} (hshape : LineShape l) (hplain : PlainLine l) :
    ∃ method uri d e, l = method ++ str " " ++ uri ++ str " " ++
        (str "HTTP/" ++ [d] ++ str "." ++ [e]) ∧ method ≠ [] ∧ (∀ b ∈ method, TokenByte b) ∧
      uri ≠ [] ∧ (∀ b ∈ uri, UriByte b) ∧ DigitByte d ∧ DigitByte e := by
  obtain ⟨method, sp, target, ws, d, e, rfl, hne, hmethod, hsp, htarget, hws, hspace, hd, he⟩ := hshape
  obtain ⟨htext, hcount⟩ := hplain
  obtain rfl : sp = ' ' := blank_of_space hsp (htext sp (by simp))
  have hblanks : ws = List.replicate ws.length (' ' : Byte) :=
    List.eq_replicate_of_mem fun b hb => blank_of_space (hspace b hb) (htext b (by simp [hb]))
  have hcount_ws : ws.count (' ' : Byte) = ws.length := by
    conv_lhs => rw [hblanks]
    exact List.count_replicate_self
  have hpos := List.length_pos_of_ne_nil hws
  rw [List.count_append, List.count_cons_self, List.count_append, List.count_append,
    count_version hd he, count_blank_of_token hmethod, hcount_ws] at hcount
  have hlen : ws.length = 1 := by omega
  have htarget_count : target.count (' ' : Byte) = 0 := by omega
  rw [hlen] at hblanks
  refine ⟨method, target, d, e, ?_, hne, hmethod, htarget, fun b hb => ⟨htext b (by simp [hb]), ?_⟩,
    hd, he⟩
  · rw [hblanks]
    simp [str]
  · rintro rfl
    exact List.count_eq_zero.mp htarget_count hb

/-- A request line of the grammar is plain. -/
theorem plainLine_of_grammar {method uri major minor : Bytes} (hmethod : ∀ b ∈ method, TokenByte b)
    (huri : ∀ b ∈ uri, UriByte b) (hmajor : ∀ b ∈ major, DigitByte b)
    (hminor : ∀ b ∈ minor, DigitByte b) :
    PlainLine (method ++ str " " ++ uri ++ str " " ++ (str "HTTP/" ++ major ++ str "." ++ minor)) := by
  have hhttp : ∀ b ∈ str "HTTP/", TextByte b := by simp [str]; decide
  have hdot : ∀ b ∈ str ".", TextByte b := by simp [str]; decide
  have hblank : ∀ b ∈ str " ", TextByte b := by simp [str]; decide
  constructor
  · intro b hb
    simp only [List.mem_append] at hb
    rcases hb with (((h | h) | h) | h) | ((h | h) | h) | h
    · exact (tokenByte_text (hmethod b h)).1
    · exact hblank b h
    · exact (huri b h).1
    · exact hblank b h
    · exact hhttp b h
    · exact (digitByte_text (hmajor b h)).1
    · exact hdot b h
    · exact (digitByte_text (hminor b h)).1
  · have hcount : ∀ {w : Bytes}, (∀ b ∈ w, b ≠ ' ') → w.count (' ' : Byte) = 0 := fun h =>
      List.count_eq_zero.mpr fun hmem => h _ hmem rfl
    have hblank_count : (str " ").count (' ' : Byte) = 1 := by decide
    simp only [List.count_append, count_blank_http, count_blank_dot, hblank_count,
      count_blank_of_token hmethod, hcount fun b hb => (huri b hb).2,
      hcount fun b hb => (digitByte_text (hmajor b hb)).2,
      hcount fun b hb => (digitByte_text (hminor b hb)).2]

/-- A text without control characters is the first line. -/
theorem find_crlf_text {l : Bytes} (hl : ∀ b ∈ l, TextByte b) (t : Bytes) :
    find crlf (l ++ crlf ++ t) = some l.length := by
  induction l with
  | nil => rfl
  | cons c l ih =>
    rw [List.forall_mem_cons] at hl
    have hc : c ≠ '\r' := fun h => absurd (h ▸ hl.1) (by decide)
    have hpre : ¬ crlf.isPrefixOf (c :: (l ++ crlf ++ t)) = true := by
      rw [List.isPrefixOf_iff_prefix]
      rintro ⟨u, hu⟩
      exact hc (List.cons.inj hu).1.symm
    rw [List.cons_append, List.cons_append, find, if_neg hpre, ih hl.2]
    rfl

/-- The first line of a longer string. -/
theorem line_eq {s pad line t : Bytes} {i : Nat} (h : find crlf s = some i)
    (hline : ∀ b ∈ line, TextByte b) (hs : s ++ pad = line ++ crlf ++ t) :
    s.take i = line ∧ s = line ++ crlf ++ s.drop (i + 2) ∧ t = s.drop (i + 2) ++ pad := by
  have hi : line.length = i := by
    have hfind := find_append pad h
    rw [hs, find_crlf_text hline] at hfind
    exact Option.some.inj hfind
  obtain ⟨u, hu, hle⟩ := find_eq_some h
  have hlength : (s.take i).length = line.length := by rw [hi, List.length_take, Nat.min_eq_left hle]
  have hdrop : s.drop (i + 2) = u := by
    rw [hu, List.drop_append]
    simp [hle, crlf]
  have heq : s.take i ++ (crlf ++ (u ++ pad)) = line ++ (crlf ++ t) := by
    rw [← List.append_assoc, ← List.append_assoc, ← hu, hs, List.append_assoc]
  obtain ⟨htake, hrest⟩ := List.append_inj heq hlength
  rw [hdrop]
  refine ⟨htake, ?_, (List.append_cancel_left hrest).symm⟩
  rw [← htake]
  exact hu

/-! ## What the parser accepts is plain -/

/-- A checked header line starts with a letter. -/
theorem exists_letter {l : Bytes} (h : checkHeader l = true) :
    ∃ a t, l = a :: t ∧ TokenByte a := by
  obtain ⟨name, _, rfl, hname, -⟩ := mem_seq_cons.mp ((isMatch_iff _ _).mp h)
  obtain ⟨hne, hclass⟩ := mem_plus_cls.mp hname
  obtain ⟨a, t, rfl⟩ := List.exists_cons_of_ne_nil hne
  exact ⟨a, _, rfl, tokenByte_of_letter a (hclass a List.mem_cons_self)⟩

/-- **Header lines that are checked and accepted** are plain, by induction on the lines. -/
theorem plainHeaders_of_accepts {x pad : Bytes} (hx : checkHeaders x = true) {q : RequestParser}
    {v : Bytes} {r : UInt64} {raw path ver m u b : Bytes} {hs : List (Bytes × Bytes)}
    (h : Accepts ⟨.headerStart, r, raw, path, ver, m, u, hs, b⟩ (x ++ pad) q v) :
    PlainHeaders x := by
  fun_induction checkHeaders x generalizing raw hs with
  | case1 => cases hx
  | case2 => cases hx
  | case3 x i hfind header hcheck hnil =>
    obtain ⟨rest, hrest, -⟩ := find_eq_some hfind
    have hempty : x.take i = [] := hnil
    rw [hempty, List.nil_append] at hrest
    rw [hrest]
    exact .empty rest
  | case4 x i hfind header hcheck hnil ih =>
    have hheader : checkHeader (x.take i) = true := by
      by_contra hno
      exact hcheck (by simp [header, hno, hnil])
    obtain ⟨a, t, hline, ha⟩ := exists_letter hheader
    -- the line starts with a letter: it is no empty line, and continues no header
    rw [accepts_headerStart] at h
    have hfirst : ∀ {a' : Byte} {w : Bytes}, x ++ pad = a' :: w → TokenByte a' := by
      intro a' w hw
      rw [← List.take_append_drop i x, hline] at hw
      exact (List.cons.inj hw).1 ▸ ha
    rcases h with ⟨w, hw, -⟩ | ⟨-, a', w, hw, hblank, -⟩ | ⟨a', w, hw, ha', h⟩
    · exact absurd (hfirst hw) (by decide)
    · rcases hblank with rfl | rfl
      · exact absurd (hfirst hw) (by decide)
      · exact absurd (hfirst hw) (by decide)
    rw [accepts_headerName] at h
    obtain ⟨y, w, rfl, hy, h⟩ := h
    rw [accepts_headerValue] at h
    obtain ⟨z, w, rfl, hz, h⟩ := h
    have hname : ∀ c ∈ a' :: y, TokenByte c := List.forall_mem_cons.mpr ⟨ha', hy⟩
    have hcolon : ∀ c ∈ str ": ", TextByte c := by simp [str]; decide
    have htext : ∀ c ∈ (a' :: y) ++ str ": " ++ z, TextByte c := by
      intro c hc
      rcases List.mem_append.mp hc with hc | hc
      · rcases List.mem_append.mp hc with hc | hc
        · exact (tokenByte_text (hname c hc)).1
        · exact hcolon c hc
      · exact hz c hc
    have heq : x ++ pad = ((a' :: y) ++ str ": " ++ z) ++ crlf ++ w := by
      rw [hw]
      simp
    obtain ⟨-, hx', rfl⟩ := line_eq hfind htext heq
    rw [hx']
    exact .header (List.cons_ne_nil _ _) hname hz (ih hx h)

/-- **A head that is checked and accepted** is plain, whatever follows it. -/
theorem plainHead_of_accepts {s pad : Bytes} (hs : checkRequest s = true) {q : RequestParser}
    {v : Bytes} {r : UInt64} (h : Accepts (init r) (s ++ pad) q v) : PlainHead s := by
  rcases hfind : find crlf s with - | i
  · rw [checkRequest_none hfind] at hs
    cases hs
  obtain ⟨-, -, hheaders⟩ := (checkRequest_some hfind).mp hs
  obtain ⟨method, uri, major, minor, t, raw', path', heq, -, hmethod, -, huri, -, hmajor, -, hminor, h⟩ :=
    requestLine_sound h
  have hplain := plainLine_of_grammar hmethod huri hmajor hminor
  obtain ⟨-, hs', rfl⟩ := line_eq hfind hplain.1 heq
  exact ⟨_, _, hs', hplain, plainHeaders_of_accepts hheaders h⟩

/-! ## What is plain is accepted -/

/-- Plain headers are headers of the grammar, and what follows them. -/
theorem PlainHeaders.grammar {x : Bytes} (h : PlainHeaders x) :
    ∃ (hds : List HeaderText) (rest : Bytes), x = hds.flatMap HeaderText.render ++ crlf ++ rest := by
  induction h with
  | empty rest => exact ⟨[], rest, rfl⟩
  | @header name value rest hne hname hvalue _ ih =>
    obtain ⟨hds, rest, rfl⟩ := ih
    refine ⟨⟨name, value, [], hne, hname, hvalue⟩ :: hds, rest, ?_⟩
    simp [HeaderText.render]

/-- A plain head that is checked is the head of a request: NULs can complete its body. -/
theorem PlainHead.grammar {s : Bytes} (h : PlainHead s) (hs : checkRequest s = true) :
    ∃ (t : RequestText) (pad rest : Bytes), s ++ pad = t.render ++ rest ∧ ∀ c ∈ pad, c = 0 := by
  obtain ⟨line, x, rfl, hplain, hheaders⟩ := h
  obtain ⟨hline, -⟩ := (checkRequest_some (find_crlf_text hplain.1 x)).mp hs
  rw [List.append_assoc, List.take_left] at hline
  obtain ⟨method, uri, d, e, rfl, hm, hm', hu, hu', hd, he⟩ :=
    plain_of_lineShape (lineShape_of_check hline) hplain
  obtain ⟨hds, rest, rfl⟩ := hheaders.grammar
  obtain ⟨body, pad, more, hbody, heq, hpad⟩ : ∃ body pad more : Bytes,
      body.length = contentLength hds ∧ rest ++ pad = body ++ more ∧ ∀ c ∈ pad, c = 0 := by
    rcases Nat.le_total rest.length (contentLength hds) with hle | hle
    · refine ⟨rest ++ List.replicate (contentLength hds - rest.length) 0, _, [], ?_,
        (List.append_nil _).symm, fun c hc => List.eq_of_mem_replicate hc⟩
      rw [List.length_append, List.length_replicate]
      omega
    · refine ⟨rest.take (contentLength hds), [], rest.drop (contentLength hds), ?_, ?_,
        fun _ hc => absurd hc List.not_mem_nil⟩
      · rw [List.length_take, Nat.min_eq_left hle]
      · rw [List.append_nil, List.take_append_drop]
  refine ⟨⟨method, uri, [d], [e], hds, body, hm, hm', hu, hu', List.cons_ne_nil _ _,
    List.forall_mem_singleton.mpr hd, List.cons_ne_nil _ _, List.forall_mem_singleton.mpr he, hbody⟩,
    pad, more, ?_, hpad⟩
  simp only [RequestText.render, RequestText.version, List.append_assoc, heq]

/-- In every state but the last, a NUL is bad. -/
theorem next_nul {p : RequestParser} (hp : p.state ≠ .body) :
    ∃ p', nextCharHandler p 0 = some (.bad, p') := by
  obtain ⟨st, r, raw, path, ver, m, u, hs, b⟩ := p
  cases st
  case body => exact absurd rfl hp
  case headerStart => cases hs <;> exact ⟨_, rfl⟩
  all_goals exact ⟨_, rfl⟩

/-! ## Agreement -/

/-- `Parse` does not fail: it is done, or it waits for more of the body. -/
def Parses (p : RequestParser) (req : Request) (s : Bytes) : Prop :=
  ∃ out, p.parse req s = some out ∧
    (out.result = .good ∨ (out.result = .undefined ∧ out.parser.state = .body))

variable {p p' : RequestParser} {req : Request} {s w : Bytes}

/-- In the body, the bytes that are missing complete the request. -/
theorem accepts_missing (hp : p.state = .body) (hr : p.remaining ≠ 0) :
    ∃ q, Accepts p (List.replicate p.remaining.toNat 0) q [] := by
  obtain ⟨st, r, raw, path, ver, m, u, hs, b⟩ := p
  obtain rfl : st = .body := hp
  exact ⟨_, (accepts_body hr).mpr
    ⟨_, (List.append_nil _).symm, List.length_replicate, rfl⟩⟩

/-- **When the two checks agree**: a request that `check_request` accepts is not bad for the
parser exactly if its head is plain. -/
theorem parses_iff (hp : p.Fresh) (req : Request) (hs : checkRequest s = true) :
    Parses p req s ↔ PlainHead s := by
  constructor
  · rintro ⟨out, hout, hgood | ⟨hundefined, hbody⟩⟩
    · obtain ⟨q, h, -⟩ := accepts_of_parse hout hgood
      rw [hp, ← List.append_nil s] at h
      exact plainHead_of_accepts hs h
    · have hrun := pending_of_parse hout hundefined
      have hsafe := (safe_fresh hp).pending hrun
      rw [Safe, hbody] at hsafe
      obtain ⟨q, hq⟩ := accepts_missing hbody hsafe
      have h : Accepts p (s ++ List.replicate out.parser.remaining.toNat 0) q [] := by
        rw [Accepts, Reader.run_append, hrun]
        exact hq
      rw [hp] at h
      exact plainHead_of_accepts hs h
  · intro hplain
    obtain ⟨t, pad, rest, htext, hpad⟩ := hplain.grammar hs
    obtain ⟨q, h, -⟩ := accepts_complete p.remaining t rest
    rw [← hp, ← htext, Accepts, Reader.run_append] at h
    rcases hrun : Reader.run step p s with p' | ⟨r, rest'⟩
    · -- the text ends inside of the body
      rw [hrun] at h
      have hout : p.parse req s = some ⟨.undefined, [], p', req⟩ := by rw [parse, hrun]
      refine ⟨_, hout, Or.inr ⟨rfl, ?_⟩⟩
      by_contra hbody
      rcases pad with - | ⟨c, pad⟩
      · cases h
      · obtain rfl := hpad c List.mem_cons_self
        exact not_accepts_bad (next_nul hbody) h
    · rw [hrun] at h
      obtain ⟨rfl, -⟩ := Reader.Outcome.decided.inj h
      exact ⟨_, parse_of_accepts hrun, Or.inl rfl⟩

/-- A request with one header, and half of its body. -/
theorem parses_post :
    Parses (init 0) .cleared (str "POST /a HTTP/1.1\r\nContent-Length: 2\r\n\r\nh") := by
  have hplain : PlainHead (str "POST /a HTTP/1.1\r\nContent-Length: 2\r\n\r\nh") := by
    refine ⟨str "POST /a HTTP/1.1", str "Content-Length: 2\r\n\r\nh", by decide,
      ⟨by simp [str]; decide, by decide⟩, ?_⟩
    exact @PlainHeaders.header (str "Content-Length") (str "2") _ (List.cons_ne_nil _ _)
      (by simp [str]; decide) (by simp [str]; decide) (.empty (str "h"))
  exact (parses_iff (fresh_init 0) .cleared (by decide +kernel)).mpr hplain

/-- A header without a blank behind its colon passes the check, and is bad for the parser. -/
theorem not_parses_colon :
    ¬ ∀ (p : RequestParser) req s, p.Fresh → checkRequest s = true → Parses p req s := by
  intro hall
  obtain ⟨out, hout, hresult⟩ := hall (init 0) .cleared (str "GET / HTTP/1.1\r\nA:b\r\n\r\n")
    (fresh_init 0) (by decide +kernel)
  have hbad : ((init 0).parse .cleared (str "GET / HTTP/1.1\r\nA:b\r\n\r\n")).map
      ParseOutcome.result = some .bad := by decide
  rw [hout] at hbad
  have hout_bad : out.result = .bad := Option.some.inj hbad
  rcases hresult with hgood | ⟨hundefined, -⟩
  · cases hgood.symm.trans hout_bad
  · cases hundefined.symm.trans hout_bad

end RequestParser

end LowKeyWebServer
