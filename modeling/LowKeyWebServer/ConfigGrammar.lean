import LowKeyWebServer.ConfigParser

/-!
# The grammar of a config

What the config parser is for, stated without its automata. `Lexes s ts last` splits a text
into tokens and comments, with `last` for what only the end of the text ends; `Derives ts cfg`
is the grammar `config := statement*`, `statement := word+ (';' | '{' config '}')`, with its
tree.

* `exists_lexes`, `lexes_unique`: every text is split in exactly one way;
* `parseToken` reads one token of that split (`parseToken_ordinary`, …).
-/

namespace LowKeyWebServer

namespace NginxConfigParser

/-! ## Words -/

/-- A character that can start a run of ordinary characters. -/
def startsNormal (c : Byte) : Bool :=
  !(isBlank c || endsNormal c || c == '#' || c == '"' || c == '\'')

/-- The end of a line. -/
def isLineEnd (c : Byte) : Bool := c == '\n' || c == '\r'

/-- A quotation mark. -/
def isQuote (c : Byte) : Bool := c == '"' || c == '\''

/-- A run of ordinary characters. -/
inductive OrdinaryWord : Bytes → Prop where
  | mk {c : Byte} {w : Bytes} : startsNormal c = true → (∀ x ∈ w, endsNormal x = false) →
      OrdinaryWord (c :: w)

/-- A quoted string, with its quotation marks. -/
inductive QuotedWord : Bytes → Prop where
  | mk {q : Byte} {body : Bytes} : isQuote q = true → q ∉ body → QuotedWord (q :: (body ++ [q]))

/-- A token that is no punctuation. -/
def Word (w : Bytes) : Prop := OrdinaryWord w ∨ QuotedWord w

/-! ## Tokens -/

/-- A token, or a comment (without its `#`). -/
inductive Token : Type where
  | word (w : Bytes)
  | semicolon
  | opening
  | closing
  | comment (text : Bytes)
  deriving DecidableEq

namespace Token

/-- Its type in the parser. -/
def type : Token → TokenType
  | word _ => .normal
  | semicolon => .statementEnd
  | opening => .startBlock
  | closing => .endBlock
  | comment _ => .comment

/-- Its text. -/
def value : Token → Bytes
  | word w => w
  | semicolon => str ";"
  | opening => str "\x7b"
  | closing => str "\x7d"
  | comment text => ('#' : Byte) :: text

/-- It is no comment. -/
def significant : Token → Bool
  | comment _ => false
  | _ => true

end Token

/-- What is left at the end of the text. -/
inductive Last : Type where
  /-- nothing -/
  | nothing
  /-- a run of ordinary characters that only the end of the text ends -/
  | word (w : Bytes)
  /-- a comment on a last line without an end -/
  | comment (text : Bytes)
  /-- a quotation mark without its partner, and what follows it -/
  | quote (text : Bytes)

namespace Last

/-- Its type in the parser. -/
def type : Last → TokenType
  | quote _ => .error
  | _ => .eof

/-- Its text. -/
def value : Last → Bytes
  | nothing => []
  | word w => w
  | comment text => ('#' : Byte) :: text
  | quote text => text

/-- The tokens it counts for: an unfinished string is none. -/
def tokens : Last → Option (List Token)
  | nothing => some []
  | word w => some [.word w]
  | comment _ => some []
  | quote _ => none

end Last

/-- The split of a text into tokens and comments. -/
inductive Lexes : Bytes → List Token → Last → Prop where
  | nil : Lexes [] [] .nothing
  | lastWord {w : Bytes} : OrdinaryWord w → Lexes w [] (.word w)
  | lastComment {text : Bytes} : (∀ x ∈ text, isLineEnd x = false) →
      Lexes (('#' : Byte) :: text) [] (.comment text)
  | lastQuote {q : Byte} {text : Bytes} : isQuote q = true → q ∉ text →
      Lexes (q :: text) [] (.quote (q :: text))
  | blank {c : Byte} {s : Bytes} {ts : List Token} {last : Last} : isBlank c = true →
      Lexes s ts last → Lexes (c :: s) ts last
  | semicolon {s : Bytes} {ts : List Token} {last : Last} : Lexes s ts last →
      Lexes ((';' : Byte) :: s) (.semicolon :: ts) last
  | opening {s : Bytes} {ts : List Token} {last : Last} : Lexes s ts last →
      Lexes (('\x7b' : Byte) :: s) (.opening :: ts) last
  | closing {s : Bytes} {ts : List Token} {last : Last} : Lexes s ts last →
      Lexes (('\x7d' : Byte) :: s) (.closing :: ts) last
  | comment {text s : Bytes} {e : Byte} {ts : List Token} {last : Last} :
      (∀ x ∈ text, isLineEnd x = false) → isLineEnd e = true → Lexes s ts last →
      Lexes (('#' : Byte) :: (text ++ e :: s)) (.comment text :: ts) last
  | quoted {w s : Bytes} {ts : List Token} {last : Last} : QuotedWord w → Lexes s ts last →
      Lexes (w ++ s) (.word w :: ts) last
  | ordinary {w s : Bytes} {e : Byte} {ts : List Token} {last : Last} : OrdinaryWord w →
      endsNormal e = true → Lexes (e :: s) ts last → Lexes (w ++ e :: s) (.word w :: ts) last

/-! ## The grammar -/

/-- A derivation of a config, with its tree. -/
inductive Derives : List Token → NginxConfig → Prop where
  | nil : Derives [] []
  | simple {words : List Bytes} {ts : List Token} {cfg : NginxConfig} : words ≠ [] →
      Derives ts cfg →
      Derives (words.map Token.word ++ .semicolon :: ts) (.mk words none :: cfg)
  | block {words : List Bytes} {inner ts : List Token} {child cfg : NginxConfig} : words ≠ [] →
      Derives inner child → Derives ts cfg →
      Derives (words.map Token.word ++ .opening :: (inner ++ .closing :: ts))
        (.mk words (some child) :: cfg)

/-- The text is a valid config, with this tree: all its tokens derive it. -/
def Valid (s : Bytes) (cfg : NginxConfig) : Prop :=
  ∃ ts last rest, Lexes s ts last ∧ last.tokens = some rest ∧
    Derives (ts.filter Token.significant ++ rest) cfg

/-! ## One token -/

theorem parseToken_blank {c : Byte} (hc : isBlank c = true) (s : Bytes) :
    parseToken (c :: s) = parseToken s := by
  simp only [isBlank, Bool.or_eq_true, beq_iff_eq] at hc
  obtain ((rfl | rfl) | rfl) | rfl := hc <;> rfl

theorem parseTokenFrom_comment {text : Bytes} (h : ∀ x ∈ text, isLineEnd x = false) (acc t : Bytes) :
    parseTokenFrom .comment acc (text ++ t) = parseTokenFrom .comment (acc ++ text) t := by
  induction text generalizing acc with
  | nil => rw [List.nil_append, List.append_nil]
  | cons c text ih =>
    rw [List.forall_mem_cons] at h
    have hc : ¬ (c = '\n' ∨ c = '\r') := by simpa [isLineEnd] using h.1
    rw [List.cons_append, parseTokenFrom, if_neg hc, ih h.2, List.append_assoc, List.singleton_append]

theorem parseToken_comment {text : Bytes} (h : ∀ x ∈ text, isLineEnd x = false) {e : Byte}
    (he : isLineEnd e = true) (s : Bytes) :
    parseToken (('#' : Byte) :: (text ++ e :: s)) = (.comment, ('#' : Byte) :: text, s) := by
  have he' : e = '\n' ∨ e = '\r' := by simpa [isLineEnd] using he
  have hstart : parseToken (('#' : Byte) :: (text ++ e :: s)) =
      parseTokenFrom .comment ['#'] (text ++ e :: s) := rfl
  rw [hstart, parseTokenFrom_comment h, parseTokenFrom, if_pos he']
  rfl

theorem parseToken_lastComment {text : Bytes} (h : ∀ x ∈ text, isLineEnd x = false) :
    parseToken (('#' : Byte) :: text) = (.eof, ('#' : Byte) :: text, []) := by
  have hscan := parseTokenFrom_comment h ['#'] []
  rw [List.append_nil] at hscan
  exact hscan

/-- The state after a quotation mark. -/
def quoteState (q : Byte) : TokenParserState := if q = '"' then .doubleQuote else .singleQuote

theorem parseToken_isQuote {q : Byte} (hq : isQuote q = true) (t : Bytes) :
    parseToken (q :: t) = parseTokenFrom (quoteState q) [q] t := by
  simp only [isQuote, Bool.or_eq_true, beq_iff_eq] at hq
  obtain rfl | rfl := hq <;> rfl

theorem parseTokenFrom_quote {q c : Byte} (hq : isQuote q = true) (acc t : Bytes) :
    parseTokenFrom (quoteState q) acc (c :: t) =
      if c = q then (.normal, acc ++ [c], t) else parseTokenFrom (quoteState q) (acc ++ [c]) t := by
  simp only [isQuote, Bool.or_eq_true, beq_iff_eq] at hq
  obtain rfl | rfl := hq <;> rfl

theorem parseTokenFrom_body {q : Byte} (hq : isQuote q = true) {body : Bytes} (h : q ∉ body)
    (acc t : Bytes) :
    parseTokenFrom (quoteState q) acc (body ++ t) = parseTokenFrom (quoteState q) (acc ++ body) t := by
  induction body generalizing acc with
  | nil => rw [List.nil_append, List.append_nil]
  | cons c body ih =>
    rw [List.mem_cons, not_or] at h
    rw [List.cons_append, parseTokenFrom_quote hq, if_neg (Ne.symm h.1), ih h.2, List.append_assoc,
      List.singleton_append]

theorem parseToken_quoted {w : Bytes} (hw : QuotedWord w) (s : Bytes) :
    parseToken (w ++ s) = (.normal, w, s) := by
  obtain ⟨hq, hbody⟩ := hw
  rw [List.cons_append, List.append_assoc, parseToken_isQuote hq, parseTokenFrom_body hq hbody]
  exact (parseTokenFrom_quote hq _ _).trans (if_pos rfl)

theorem parseToken_lastQuote {q : Byte} (hq : isQuote q = true) {text : Bytes} (h : q ∉ text) :
    parseToken (q :: text) = (.error, q :: text, []) := by
  have hscan := parseTokenFrom_body hq h [q] []
  have hend : parseTokenFrom (quoteState q) (q :: text) [] = (.error, q :: text, []) := by
    simp only [isQuote, Bool.or_eq_true, beq_iff_eq] at hq
    obtain rfl | rfl := hq <;> rfl
  rw [List.append_nil] at hscan
  rw [parseToken_isQuote hq, hscan]
  exact hend

theorem parseTokenFrom_normal {w : Bytes} (h : ∀ x ∈ w, endsNormal x = false) (acc t : Bytes) :
    parseTokenFrom .normal acc (w ++ t) = parseTokenFrom .normal (acc ++ w) t := by
  induction w generalizing acc with
  | nil => rw [List.nil_append, List.append_nil]
  | cons c w ih =>
    rw [List.forall_mem_cons] at h
    have hc : ¬ endsNormal c = true := by rw [h.1]; exact Bool.false_ne_true
    rw [List.cons_append, parseTokenFrom, if_neg hc, ih h.2, List.append_assoc, List.singleton_append]

/-- An ordinary character starts a word. -/
theorem parseToken_startsNormal {c : Byte} (hc : startsNormal c = true) (t : Bytes) :
    parseToken (c :: t) = parseTokenFrom .normal [c] t := by
  simp only [startsNormal, isBlank, endsNormal, Bool.not_eq_true', Bool.or_eq_false_iff,
    beq_eq_false_iff_ne] at hc
  rw [parseToken, parseTokenFrom]
  simp [hc, isBlank]

theorem parseToken_ordinary {w : Bytes} (hw : OrdinaryWord w) {e : Byte} (he : endsNormal e = true)
    (s : Bytes) : parseToken (w ++ e :: s) = (.normal, w, e :: s) := by
  obtain ⟨hc, hrest⟩ := hw
  rw [List.cons_append, parseToken_startsNormal hc, parseTokenFrom_normal hrest, parseTokenFrom,
    if_pos he]
  rfl

theorem parseToken_lastWord {w : Bytes} (hw : OrdinaryWord w) : parseToken w = (.eof, w, []) := by
  obtain @⟨c, w, hc, hrest⟩ := hw
  have hscan := parseTokenFrom_normal hrest [c] []
  rw [List.append_nil] at hscan
  rw [parseToken_startsNormal hc, hscan]
  rfl

/-! ## Every text has exactly one split -/

theorem OrdinaryWord.ne_nil {w : Bytes} (h : OrdinaryWord w) : w ≠ [] := by
  obtain ⟨-, -⟩ := h
  exact List.cons_ne_nil _ _

theorem OrdinaryWord.head_ne {w : Bytes} (h : OrdinaryWord w) {c : Byte} (hc : startsNormal c = false) :
    w.head? ≠ some c := by
  obtain ⟨hstart, -⟩ := h
  intro heq
  rw [← Option.some.inj heq, hstart] at hc
  cases hc

theorem Word.head_ne {w : Bytes} (h : Word w) {c : Byte} (hc : startsNormal c = false)
    (hq : isQuote c = false) : w.head? ≠ some c := by
  rcases h with ho | @⟨q, body, hquote, -⟩
  · exact ho.head_ne hc
  · intro heq
    have hqc : q = c := Option.some.inj heq
    rw [hqc, hq] at hquote
    cases hquote

theorem Word.ne_nil {w : Bytes} (h : Word w) : w ≠ [] := by
  rcases h with ho | ⟨-, -⟩
  · exact ho.ne_nil
  · exact List.cons_ne_nil _ _

/-- A word at the end of the text is an ordinary one. -/
def Last.Ok : Last → Prop
  | .word w => OrdinaryWord w
  | _ => True

/-- The first token of a split is the one that `parseToken` reads. -/
theorem Lexes.step {s : Bytes} {ts : List Token} {last : Last} (h : Lexes s ts last) :
    (ts = [] ∧ last.Ok ∧ parseToken s = (last.type, last.value, [])) ∨
      ∃ t ts' rest, ts = t :: ts' ∧ parseToken s = (t.type, t.value, rest) ∧ Lexes rest ts' last := by
  induction h with
  | nil => exact Or.inl ⟨rfl, trivial, rfl⟩
  | lastWord hw => exact Or.inl ⟨rfl, hw, parseToken_lastWord hw⟩
  | lastComment h => exact Or.inl ⟨rfl, trivial, parseToken_lastComment h⟩
  | lastQuote hq h => exact Or.inl ⟨rfl, trivial, parseToken_lastQuote hq h⟩
  | blank hc _ ih =>
    rw [parseToken_blank hc]
    exact ih
  | semicolon h _ => exact Or.inr ⟨_, _, _, rfl, rfl, h⟩
  | opening h _ => exact Or.inr ⟨_, _, _, rfl, rfl, h⟩
  | closing h _ => exact Or.inr ⟨_, _, _, rfl, rfl, h⟩
  | comment htext he h _ => exact Or.inr ⟨_, _, _, rfl, parseToken_comment htext he _, h⟩
  | quoted hw h _ => exact Or.inr ⟨_, _, _, rfl, parseToken_quoted hw _, h⟩
  | ordinary hw he h _ => exact Or.inr ⟨_, _, _, rfl, parseToken_ordinary hw he _, h⟩

theorem Token.eq_of_type_value {t t' : Token} (htype : t.type = t'.type) (hvalue : t.value = t'.value) :
    t = t' := by
  cases t <;> cases t' <;> first | rfl | cases htype
  · exact congrArg Token.word hvalue
  · exact congrArg Token.comment (List.cons.inj hvalue).2

theorem Last.eq_of_type_value {l l' : Last} (hl : l.Ok) (hl' : l'.Ok) (htype : l.type = l'.type)
    (hvalue : l.value = l'.value) : l = l' := by
  have hhash : startsNormal '#' = false := by decide
  cases l <;> cases l' <;> first | rfl | cases htype
  · exact absurd hvalue.symm hl'.ne_nil
  · cases hvalue
  · exact absurd hvalue hl.ne_nil
  · exact congrArg Last.word hvalue
  · exact absurd (congrArg List.head? hvalue) (hl.head_ne hhash)
  · cases hvalue
  · exact absurd (congrArg List.head? hvalue.symm) (hl'.head_ne hhash)
  · exact congrArg Last.comment (List.cons.inj hvalue).2
  · exact congrArg Last.quote hvalue

/-- No token has the type of an end. -/
theorem Token.type_ne (t : Token) (last : Last) : t.type ≠ last.type := by
  intro h
  cases t <;> cases last <;> cases h

/-- **The split is unique.** -/
theorem lexes_unique {ts ts' : List Token} {last last' : Last} {s : Bytes} (h : Lexes s ts last)
    (h' : Lexes s ts' last') : ts = ts' ∧ last = last' := by
  induction ts generalizing s ts' with
  | nil =>
    rcases h.step with ⟨-, hok, hs⟩ | ⟨t, _, _, hts, -⟩
    · rcases h'.step with ⟨rfl, hok', hs'⟩ | ⟨t', _, _, -, hs', -⟩
      · obtain ⟨htype, hvalue, -⟩ := Prod.mk.inj (hs.symm.trans hs') |>.imp_right Prod.mk.inj
        exact ⟨rfl, Last.eq_of_type_value hok hok' htype hvalue⟩
      · exact absurd (Prod.mk.inj (hs'.symm.trans hs)).1 (t'.type_ne last)
    · cases hts
  | cons t ts ih =>
    rcases h.step with ⟨hts, -⟩ | ⟨t₁, ts₁, rest, hts, hs, hrest⟩
    · cases hts
    · obtain ⟨rfl, rfl⟩ := List.cons.inj hts
      rcases h'.step with ⟨-, -, hs'⟩ | ⟨t', ts₂, rest', rfl, hs', hrest'⟩
      · exact absurd (Prod.mk.inj (hs.symm.trans hs')).1 (t.type_ne last')
      · obtain ⟨htype, hpair⟩ := Prod.mk.inj (hs.symm.trans hs')
        obtain ⟨hvalue, rfl⟩ := Prod.mk.inj hpair
        obtain ⟨rfl, hlast⟩ := ih hrest hrest'
        exact ⟨by rw [Token.eq_of_type_value htype hvalue], hlast⟩

/-- The longest prefix of a class of characters. -/
theorem exists_prefix (p : Byte → Bool) (s : Bytes) :
    ∃ u t, s = u ++ t ∧ (∀ x ∈ u, p x = true) ∧ (t = [] ∨ ∃ e r, t = e :: r ∧ p e = false) := by
  induction s with
  | nil => exact ⟨[], [], rfl, fun _ h => absurd h List.not_mem_nil, Or.inl rfl⟩
  | cons c s ih =>
    rcases hc : p c with - | -
    · exact ⟨[], c :: s, rfl, fun _ h => absurd h List.not_mem_nil, Or.inr ⟨c, s, rfl, hc⟩⟩
    · obtain ⟨u, t, rfl, hu, ht⟩ := ih
      exact ⟨c :: u, t, rfl, List.forall_mem_cons.mpr ⟨hc, hu⟩, ht⟩

/-- A character is a blank, punctuation, the start of a comment or string, or of a word. -/
theorem byte_cases (c : Byte) : isBlank c = true ∨ c = ';' ∨ c = '\x7b' ∨ c = '\x7d' ∨ c = '#' ∨
    isQuote c = true ∨ startsNormal c = true := by
  revert c
  exact forall_byte (by decide +kernel)

/-- By induction on the length of the text. -/
theorem exists_lexes_le (n : Nat) : ∀ s : Bytes, s.length ≤ n → ∃ ts last, Lexes s ts last := by
  induction n with
  | zero =>
    intro s hs
    obtain rfl : s = [] := List.eq_nil_of_length_eq_zero (by omega)
    exact ⟨[], .nothing, .nil⟩
  | succ n ih =>
    intro s hs
    rcases s with - | ⟨c, s⟩
    · exact ⟨[], .nothing, .nil⟩
    rw [List.length_cons] at hs
    obtain ⟨ts, last, hlex⟩ := ih s (by omega)
    rcases byte_cases c with hc | rfl | rfl | rfl | rfl | hc | hc
    · exact ⟨ts, last, .blank hc hlex⟩
    · exact ⟨_, last, .semicolon hlex⟩
    · exact ⟨_, last, .opening hlex⟩
    · exact ⟨_, last, .closing hlex⟩
    · -- a comment
      obtain ⟨u, t, rfl, hu, ht⟩ := exists_prefix (fun x => !isLineEnd x) s
      have hu' : ∀ x ∈ u, isLineEnd x = false := fun x hx => by simpa using hu x hx
      rcases ht with rfl | ⟨e, r, rfl, he⟩
      · rw [List.append_nil]
        exact ⟨[], _, .lastComment hu'⟩
      · rw [List.length_append, List.length_cons] at hs
        obtain ⟨ts, last, hlex⟩ := ih r (by omega)
        exact ⟨_, last, .comment hu' (by simpa using he) hlex⟩
    · -- a string
      obtain ⟨u, t, rfl, hu, ht⟩ := exists_prefix (fun x => x != c) s
      have hu' : c ∉ u := fun hx => by simpa using hu c hx
      rcases ht with rfl | ⟨e, r, rfl, he⟩
      · rw [List.append_nil]
        exact ⟨[], _, .lastQuote hc hu'⟩
      · obtain rfl : e = c := by simpa using he
        rw [List.length_append, List.length_cons] at hs
        obtain ⟨ts, last, hlex⟩ := ih r (by omega)
        have hquoted := Lexes.quoted (.mk hc hu') hlex
        rw [List.cons_append, List.append_assoc, List.singleton_append] at hquoted
        exact ⟨_, last, hquoted⟩
    · -- a run of ordinary characters
      obtain ⟨u, t, rfl, hu, ht⟩ := exists_prefix (fun x => !endsNormal x) s
      have hu' : ∀ x ∈ u, endsNormal x = false := fun x hx => by simpa using hu x hx
      rcases ht with rfl | ⟨e, r, rfl, he⟩
      · rw [List.append_nil]
        exact ⟨[], _, .lastWord (.mk hc hu')⟩
      · rw [List.length_append, List.length_cons] at hs
        obtain ⟨ts, last, hlex⟩ := ih (e :: r) (by rw [List.length_cons]; omega)
        exact ⟨_, last, .ordinary (.mk hc hu') (by simpa using he) hlex⟩

/-- **Every text has a split.** -/
theorem exists_lexes (s : Bytes) : ∃ ts last, Lexes s ts last :=
  exists_lexes_le s.length s (Nat.le_refl _)

/-- A word at the end of the text is an ordinary one. -/
theorem Lexes.last_ok {s : Bytes} {ts : List Token} {last : Last} (h : Lexes s ts last) :
    last.Ok := by
  induction h with
  | nil | lastComment | lastQuote => exact trivial
  | lastWord hw => exact hw
  | blank _ _ ih | semicolon _ ih | opening _ ih | closing _ ih | comment _ _ _ ih | quoted _ _ ih
  | ordinary _ _ _ ih => exact ih

/-- The words of a split are words. -/
theorem Lexes.word {s : Bytes} {ts : List Token} {last : Last} (h : Lexes s ts last) :
    ∀ w, Token.word w ∈ ts → Word w := by
  induction h with
  | nil | lastWord | lastComment | lastQuote => exact fun _ h => absurd h List.not_mem_nil
  | blank _ _ ih => exact ih
  | semicolon _ ih | opening _ ih | closing _ ih | comment _ _ _ ih =>
    intro w hw
    rcases List.mem_cons.mp hw with hw | hw
    · cases hw
    · exact ih w hw
  | quoted hq _ ih =>
    intro w hw
    rcases List.mem_cons.mp hw with hw | hw
    · exact Token.word.inj hw ▸ Or.inr hq
    · exact ih w hw
  | ordinary ho _ _ ih =>
    intro w hw
    rcases List.mem_cons.mp hw with hw | hw
    · exact Token.word.inj hw ▸ Or.inl ho
    · exact ih w hw

end NginxConfigParser

end LowKeyWebServer
