import LowKeyWebServer.ConfigParserCorrect

/-!
# Line endings of a config

`\n` against `\r\n`. The tokenizer skips a `\r` before a token and ends a comment at one, but where
it reads a word a `\r` is one more character of it (the test names `\t` twice). So a word that a `\n`
follows directly grows when the line ends are rewritten, and the config with it (`keepsConfig_iff`).

* `firstWord_or_steady`: up to the first such word the two texts have the same tokens;
* `Reading.words_run`: the words of the config that `Parse` leaves are those that it has read;
* `exists_valid`: what `Parse` has read without an error can be completed to a valid config.
-/

namespace LowKeyWebServer

namespace NginxConfigParser

/-! ## The texts -/

/-- Every `\n` replaced by `\r\n`. -/
def toCrlf (s : Bytes) : Bytes := s.flatMap fun c : Byte => if c = '\n' then crlf else [c]

@[simp] theorem toCrlf_nil : toCrlf [] = [] := rfl

@[simp] theorem toCrlf_append (s t : Bytes) : toCrlf (s ++ t) = toCrlf s ++ toCrlf t :=
  List.flatMap_append

@[simp] theorem toCrlf_newline (s : Bytes) :
    toCrlf (('\n' : Byte) :: s) = ('\r' : Byte) :: ('\n' : Byte) :: toCrlf s := rfl

theorem toCrlf_cons {c : Byte} (hc : c ≠ '\n') (s : Bytes) : toCrlf (c :: s) = c :: toCrlf s := by
  rw [toCrlf, List.flatMap_cons, if_neg hc]
  rfl

theorem toCrlf_line {s : Bytes} (hs : ('\n' : Byte) ∉ s) : toCrlf s = s := by
  induction s with
  | nil => rfl
  | cons c s ih =>
    rw [List.mem_cons, not_or] at hs
    rw [toCrlf_cons (Ne.symm hs.1), ih hs.2]

theorem mem_toCrlf {c : Byte} {s : Bytes} (h : c ∈ toCrlf s) : c ∈ s ∨ c = '\r' := by
  obtain ⟨d, hd, hc⟩ := List.mem_flatMap.mp h
  split at hc
  · next hn =>
    subst hn
    rcases List.mem_cons.mp hc with rfl | hc
    · exact Or.inr rfl
    · exact Or.inl (List.mem_singleton.mp hc ▸ hd)
  · exact Or.inl (List.mem_singleton.mp hc ▸ hd)

/-- `Parse` returns the same for both texts, and leaves the same config. -/
def KeepsConfig (s : Bytes) : Prop :=
  (parse (toCrlf s)).1 = (parse s).1 ∧ (parse (toCrlf s)).2.config = (parse s).2.config

/-- A line ends inside a quoted token. -/
def BreaksQuote (s : Bytes) : Prop :=
  ∃ ts last w, Lexes s ts last ∧ Token.word w ∈ ts ∧ QuotedWord w ∧ ('\n' : Byte) ∈ w

/-- A word that `Parse` reads ends a line: the tokens before it begin a valid config. -/
def WordEndsLine (s : Bytes) : Prop :=
  ∃ u w t ts, s = u ++ (w ++ ('\n' : Byte) :: t) ∧ Lexes u ts .nothing ∧ OrdinaryWord w ∧
    ∃ more cfg, Valid (u ++ more) cfg

/-! ## The tokens of both texts -/

/-- A text that is split to its end, and then another. -/
theorem Lexes.append {s t : Bytes} {ts us : List Token} {last : Last} (h : Lexes s ts .nothing)
    (ht : Lexes t us last) : Lexes (s ++ t) (ts ++ us) last := by
  generalize hl : Last.nothing = l at h
  induction h with
  | nil => exact ht
  | lastWord | lastComment | lastQuote => cases hl
  | blank hc _ ih => exact .blank hc (ih hl)
  | semicolon _ ih => exact .semicolon (ih hl)
  | opening _ ih => exact .opening (ih hl)
  | closing _ ih => exact .closing (ih hl)
  | comment htext he _ ih =>
    rw [List.cons_append, List.append_assoc]
    exact .comment htext he (ih hl)
  | quoted hw _ ih =>
    rw [List.append_assoc]
    exact .quoted hw (ih hl)
  | ordinary hw he _ ih =>
    rw [List.append_assoc]
    exact .ordinary hw he (ih hl)

/-- The line ends in it do not change its tokens. -/
structure Steady (s : Bytes) (ts : List Token) : Prop where
  before : Lexes s ts .nothing
  after : Lexes (toCrlf s) ts .nothing

theorem Steady.append {s t : Bytes} {ts us : List Token} (h : Steady s ts) (ht : Steady t us) :
    Steady (s ++ t) (ts ++ us) :=
  ⟨h.before.append ht.before, by rw [toCrlf_append]; exact h.after.append ht.after⟩

/-- What is left at the end, with the line ends rewritten. -/
def Last.toCrlf : Last → Last
  | .quote text => .quote (NginxConfigParser.toCrlf text)
  | last => last

/-- A first word that a line ends after. -/
structure FirstWord (s u w t : Bytes) (ts : List Token) : Prop where
  text : s = u ++ (w ++ ('\n' : Byte) :: t)
  steady : Steady u ts
  word : OrdinaryWord w

theorem FirstWord.prepend {s u w t x : Bytes} {ts xs : List Token} (h : FirstWord s u w t ts)
    (hx : Steady x xs) : FirstWord (x ++ s) (x ++ u) w t (xs ++ ts) :=
  ⟨by rw [h.text, List.append_assoc], hx.append h.steady, h.word⟩

theorem OrdinaryWord.no_newline {w : Bytes} (hw : OrdinaryWord w) : ('\n' : Byte) ∉ w := by
  obtain ⟨hc, hrest⟩ := hw
  rw [List.mem_cons, not_or]
  refine ⟨?_, fun h => absurd (hrest _ h) (by decide)⟩
  rintro rfl
  exact absurd hc (by decide)

theorem no_newline_of_lineEnd {text : Bytes} (h : ∀ x ∈ text, isLineEnd x = false) :
    ('\n' : Byte) ∉ text :=
  fun hmem => absurd (h _ hmem) (by decide)

theorem ne_newline_of_quote {q : Byte} (hq : isQuote q = true) : q ≠ '\n' ∧ q ≠ '\r' := by
  refine ⟨?_, ?_⟩ <;> rintro rfl <;> exact absurd hq (by decide)

theorem steady_blank {c : Byte} (hc : isBlank c = true) : Steady [c] [] := by
  refine ⟨.blank hc .nil, ?_⟩
  by_cases hn : c = '\n'
  · subst hn
    exact .blank (by decide) (.blank hc .nil)
  · rw [toCrlf_cons hn]
    exact .blank hc .nil

theorem steady_comment {text : Bytes} (h : ∀ x ∈ text, isLineEnd x = false) :
    Steady (('#' : Byte) :: (text ++ [('\n' : Byte)])) [.comment text] := by
  refine ⟨.comment h (by decide) .nil, ?_⟩
  rw [toCrlf_cons (by decide), toCrlf_append, toCrlf_line (no_newline_of_lineEnd h)]
  exact .comment h (by decide) (.blank (by decide) .nil)

theorem steady_quoted {w : Bytes} (hw : QuotedWord w) (hn : ('\n' : Byte) ∉ w) :
    Steady w [.word w] := by
  have hlex : Lexes (w ++ []) [.word w] .nothing := .quoted hw .nil
  rw [List.append_nil] at hlex
  exact ⟨hlex, by rwa [toCrlf_line hn]⟩

/-- **The tokens of both texts** are the same, up to the first word that a line ends after. -/
theorem firstWord_or_steady {s : Bytes} {ts : List Token} {last : Last} (h : Lexes s ts last)
    (hcr : ('\r' : Byte) ∉ s) (hquoted : ∀ w, QuotedWord w → Token.word w ∈ ts → ('\n' : Byte) ∉ w) :
    Lexes (toCrlf s) ts last.toCrlf ∨ ∃ u w t us, FirstWord s u w t us := by
  -- a piece that is steady, and then the rest of the text
  have hpiece {x r : Bytes} {xs rs : List Token} {l : Last} (hx : Steady x xs)
      (hr : Lexes (toCrlf r) rs l ∨ ∃ u w t us, FirstWord r u w t us) :
      Lexes (toCrlf (x ++ r)) (xs ++ rs) l ∨ ∃ u w t us, FirstWord (x ++ r) u w t us := by
    rcases hr with hr | ⟨u, w, t, us, hr⟩
    · rw [toCrlf_append]
      exact Or.inl (hx.after.append hr)
    · exact Or.inr ⟨_, _, _, _, hr.prepend hx⟩
  induction h with
  | nil => exact Or.inl .nil
  | lastWord hw =>
    rw [toCrlf_line hw.no_newline]
    exact Or.inl (.lastWord hw)
  | @lastComment text htext =>
    have hline : ('\n' : Byte) ∉ ('#' : Byte) :: text := by
      rw [List.mem_cons, not_or]
      exact ⟨by decide, no_newline_of_lineEnd htext⟩
    rw [toCrlf_line hline]
    exact Or.inl (.lastComment htext)
  | lastQuote hq htext =>
    obtain ⟨hn, hr⟩ := ne_newline_of_quote hq
    rw [Last.toCrlf, toCrlf_cons hn]
    exact Or.inl (.lastQuote hq fun hmem => (mem_toCrlf hmem).elim htext hr)
  | blank hc _ ih =>
    rw [List.mem_cons, not_or] at hcr
    exact hpiece (steady_blank hc) (ih hcr.2 hquoted)
  | semicolon _ ih =>
    rw [List.mem_cons, not_or] at hcr
    exact hpiece (x := [';']) ⟨.semicolon .nil, .semicolon .nil⟩
      (ih hcr.2 fun w hw hmem => hquoted w hw (List.mem_cons_of_mem _ hmem))
  | opening _ ih =>
    rw [List.mem_cons, not_or] at hcr
    exact hpiece (x := ['\x7b']) ⟨.opening .nil, .opening .nil⟩
      (ih hcr.2 fun w hw hmem => hquoted w hw (List.mem_cons_of_mem _ hmem))
  | closing _ ih =>
    rw [List.mem_cons, not_or] at hcr
    exact hpiece (x := ['\x7d']) ⟨.closing .nil, .closing .nil⟩
      (ih hcr.2 fun w hw hmem => hquoted w hw (List.mem_cons_of_mem _ hmem))
  | @comment text s e ts last htext he _ ih =>
    rw [List.mem_cons, List.mem_append, List.mem_cons, not_or, not_or, not_or] at hcr
    obtain ⟨-, -, hne, hcr⟩ := hcr
    obtain rfl : e = '\n' := by simpa [isLineEnd, Ne.symm hne] using he
    have hline : ('#' : Byte) :: (text ++ ('\n' : Byte) :: s) =
        ('#' : Byte) :: (text ++ [('\n' : Byte)]) ++ s := by simp
    rw [hline]
    exact hpiece (steady_comment htext)
      (ih hcr fun w hw hmem => hquoted w hw (List.mem_cons_of_mem _ hmem))
  | quoted hw _ ih =>
    rw [List.mem_append, not_or] at hcr
    exact hpiece (steady_quoted hw (hquoted _ hw List.mem_cons_self))
      (ih hcr.2 fun w hw hmem => hquoted w hw (List.mem_cons_of_mem _ hmem))
  | @ordinary w s e ts last hw he _ ih =>
    by_cases hn : e = '\n'
    · subst hn
      exact Or.inr ⟨[], w, s, [], rfl, ⟨.nil, .nil⟩, hw⟩
    rw [List.mem_append, not_or] at hcr
    have hafter {r : Bytes} {rs : List Token} {l : Last} (hr : Lexes (toCrlf (e :: r)) rs l) :
        Lexes (toCrlf (w ++ e :: r)) (.word w :: rs) l := by
      rw [toCrlf_cons hn] at hr
      rw [toCrlf_append, toCrlf_line hw.no_newline, toCrlf_cons hn]
      exact .ordinary hw he hr
    rcases ih hcr.2 fun w hw hmem => hquoted w hw (List.mem_cons_of_mem _ hmem) with
      hr | ⟨u, w', t, us, htext, hsteady, hw'⟩
    · exact Or.inl (hafter hr)
    · rcases u with - | ⟨d, u⟩
      · -- no word starts where this one ends
        obtain ⟨hc, -⟩ := hw'
        obtain rfl : e = _ := (List.cons.inj htext).1
        simp [startsNormal, he] at hc
      · obtain ⟨rfl, rfl⟩ := List.cons.inj htext
        refine Or.inr ⟨w ++ e :: u, w', t, .word w :: us, ?_, ⟨.ordinary hw he hsteady.before, ?_⟩, hw'⟩
        · exact (List.append_assoc w (e :: u) _).symm
        · exact hafter hsteady.after

theorem OrdinaryWord.concat_cr {w : Bytes} (hw : OrdinaryWord w) :
    OrdinaryWord (w ++ [('\r' : Byte)]) := by
  obtain ⟨hc, hrest⟩ := hw
  refine .mk hc fun x hx => ?_
  rcases List.mem_append.mp hx with hx | hx
  · exact hrest x hx
  · rw [List.mem_singleton.mp hx]
    rfl

/-- The tokens of a text with such a word. -/
theorem FirstWord.lexes {s u w t : Bytes} {ts : List Token} (h : FirstWord s u w t ts) :
    ∃ us last, Lexes s (ts ++ .word w :: us) last := by
  obtain ⟨us, last, ht⟩ := exists_lexes (('\n' : Byte) :: t)
  refine ⟨us, last, ?_⟩
  rw [h.text]
  exact h.steady.before.append (.ordinary h.word rfl ht)

/-- With its line ends rewritten the word has one more character. -/
theorem FirstWord.lexes_toCrlf {s u w t : Bytes} {ts : List Token} (h : FirstWord s u w t ts) :
    ∃ us last, Lexes (toCrlf s) (ts ++ .word (w ++ [('\r' : Byte)]) :: us) last := by
  obtain ⟨us, last, ht⟩ := exists_lexes (('\n' : Byte) :: toCrlf t)
  refine ⟨us, last, ?_⟩
  have htext : toCrlf s = toCrlf u ++ (w ++ [('\r' : Byte)] ++ ('\n' : Byte) :: toCrlf t) := by
    rw [h.text, toCrlf_append, toCrlf_append, toCrlf_line h.word.no_newline, toCrlf_newline,
      List.append_assoc, List.singleton_append]
  rw [htext]
  exact h.steady.after.append (.ordinary h.word.concat_cr rfl ht)

/-! ## What has been read -/

/-- The state after some tokens; `none` if `Parse` returns at one of them. -/
def readTokens (s : ParserState) : List Token → Option ParserState
  | [] => some s
  | t :: ts =>
    match parseStep s t.type t.value with
    | .next s' => readTokens s' ts
    | .stop _ _ => none

theorem run_read {s s' : ParserState} {ts : List Token} (h : readTokens s ts = some s')
    (us : List Token) (last : Last) : runTokens s (ts ++ us) last = runTokens s' us last := by
  induction ts generalizing s with
  | nil =>
    obtain rfl := Option.some.inj h
    rfl
  | cons t ts ih =>
    rw [readTokens] at h
    split at h
    · next hs =>
      rw [List.cons_append, run_next hs]
      exact ih h
    · cases h

/-- A return leaves the config as it is, and before the end of the text it returns false. -/
theorem parseStep_stop {s s' : ParserState} {tokenType : TokenType} {token : Bytes} {ret : Bool}
    (h : parseStep s tokenType token = .stop ret s') :
    s'.config = s.config ∧ (tokenType ≠ .eof → ret = false) := by
  rw [parseStep] at h
  split at h
  · cases h
    exact ⟨rfl, fun _ => rfl⟩
  · cases tokenType <;> dsimp only at h
    case eof =>
      repeat' split at h
      all_goals
        cases h
        exact ⟨rfl, fun hne => absurd rfl hne⟩
    all_goals repeat' split at h
    all_goals cases h
    all_goals exact ⟨rfl, fun _ => rfl⟩

theorem Token.type_ne_eof (t : Token) : t.type ≠ .eof := t.type_ne .nothing

/-- What follows the token at which `Parse` returns does not matter. -/
theorem run_unread {s : ParserState} {ts : List Token} (h : readTokens s ts = none) :
    ∃ s', ∀ us last, runTokens s (ts ++ us) last = (false, s') := by
  induction ts generalizing s with
  | nil => cases h
  | cons t ts ih =>
    rw [readTokens] at h
    split at h
    · next hs =>
      obtain ⟨s', hrun⟩ := ih h
      refine ⟨s', fun us last => ?_⟩
      rw [List.cons_append, run_next hs]
      exact hrun us last
    · next s' hs =>
      obtain rfl := (parseStep_stop hs).2 t.type_ne_eof
      exact ⟨s', fun us last => run_stop hs _ _⟩

/-- The end of the text leaves the config as it is. -/
theorem config_run_nil (s : ParserState) (last : Last) : (runTokens s [] last).2.config = s.config := by
  obtain ⟨ret, s', hs⟩ := parseStep_last s last
  rw [runTokens, hs]
  exact (parseStep_stop hs).1

/-- What an unfinished string holds does not matter. -/
theorem run_toCrlf (s : ParserState) (ts : List Token) (last : Last) :
    (runTokens s ts last.toCrlf).1 = (runTokens s ts last).1 ∧
      (runTokens s ts last.toCrlf).2.config = (runTokens s ts last).2.config := by
  cases last with
  | nothing | word | comment => exact ⟨rfl, rfl⟩
  | quote text =>
    have hfalse (s' : ParserState) (text : Bytes) : (runTokens s' [] (.quote text)).1 = false := by
      obtain ⟨ret, s'', hs⟩ := parseStep_last s' (.quote text)
      rw [runTokens, hs]
      exact (parseStep_stop hs).2 (by simp [Last.type])
    rw [Last.toCrlf, ← List.append_nil ts]
    rcases hread : readTokens s ts with - | s'
    · obtain ⟨s', hrun⟩ := run_unread hread
      rw [hrun, hrun]
      exact ⟨rfl, rfl⟩
    · rw [run_read hread, run_read hread, config_run_nil, config_run_nil, hfalse, hfalse]
      exact ⟨rfl, rfl⟩

/-! ## The words of a config -/

mutual

/-- The words of a statement, in the order in which they stand in the text. -/
def statementWords : NginxConfigStatement → List Bytes
  | .mk words none => words
  | .mk words (some block) => words ++ configWords block

/-- The words of a config. -/
def configWords : List NginxConfigStatement → List Bytes
  | [] => []
  | s :: cfg => statementWords s ++ configWords cfg

end

@[simp] theorem configWords_append (cfg cfg' : NginxConfig) :
    configWords (cfg ++ cfg') = configWords cfg ++ configWords cfg' := by
  induction cfg with
  | nil => rfl
  | cons s cfg ih => rw [List.cons_append, configWords, configWords, ih, List.append_assoc]

@[simp] theorem configWords_singleton (s : NginxConfigStatement) :
    configWords [s] = statementWords s := by
  rw [configWords, configWords, List.append_nil]

/-- The words in the open blocks, from the outermost. -/
def ParserState.words (s : ParserState) : List Bytes :=
  s.below.reverse.flatMap configWords ++ configWords s.top

/-- The word of a token. -/
def Token.words : Token → List Bytes
  | word w => [w]
  | _ => []

/-- A block whose last statement has a block that is still open. -/
def Opened (cfg : NginxConfig) : Prop := ∃ before words, cfg = before ++ [.mk words (some [])]

/-- A state between two tokens. -/
inductive Reading : ParserState → Prop
  /-- where a statement may start -/
  | boundary {top : NginxConfig} {below blocks : List NginxConfig} {last : TokenType} :
      Boundary last → (last = .start → below = []) → (last = .startBlock → below ≠ []) →
      (∀ b ∈ below, Opened b) → Reading ⟨top, below, below.length, last, blocks⟩
  /-- behind a word -/
  | statement {cfg : NginxConfig} {words : List Bytes} {below blocks : List NginxConfig} :
      (∀ b ∈ below, Opened b) →
      Reading ⟨cfg ++ [.mk words none], below, below.length, .normal, blocks⟩

theorem reading_initial : Reading .initial :=
  .boundary (Or.inl rfl) (fun _ => rfl) (by simp) fun _ h => absurd h List.not_mem_nil

/-- A word is read in any of them. -/
theorem Reading.next_word {s : ParserState} (h : Reading s) {w : Bytes} (hw : Word w) :
    ∃ s', parseStep s (Token.word w).type (Token.word w).value = .next s' ∧ Reading s' ∧
      s'.words = s.words ++ [w] := by
  cases h with
  | boundary hl _ _ haround =>
    refine ⟨_, step_first hw hl, .statement haround, ?_⟩
    simp [ParserState.words, statementWords]
  | statement haround =>
    refine ⟨_, step_word hw, .statement haround, ?_⟩
    simp [ParserState.words, statementWords]

/-- **A token adds its word** to those that have been read. -/
theorem Reading.next {s s' : ParserState} {t : Token} (h : Reading s)
    (hw : ∀ w, t = .word w → Word w) (hs : parseStep s t.type t.value = .next s') :
    Reading s' ∧ s'.words = s.words ++ t.words := by
  cases t with
  | word w =>
    obtain ⟨s₁, hs₁, hreading, hwords⟩ := h.next_word (hw w rfl)
    obtain rfl := Control.next.inj (hs₁.symm.trans hs)
    exact ⟨hreading, hwords⟩
  | comment text =>
    obtain rfl := Control.next.inj hs
    exact ⟨h, (List.append_nil _).symm⟩
  | semicolon =>
    cases h with
    | boundary hl => obtain rfl | rfl | rfl | rfl := hl <;> cases hs
    | statement haround =>
      obtain rfl := Control.next.inj (step_semicolon.symm.trans hs)
      exact ⟨.boundary (Or.inr (Or.inl rfl)) (by simp) (by simp) haround,
        (List.append_nil _).symm⟩
  | opening =>
    cases h with
    | boundary hl => obtain rfl | rfl | rfl | rfl := hl <;> cases hs
    | statement haround =>
      obtain rfl := Control.next.inj (step_opening.symm.trans hs)
      refine ⟨.boundary (Or.inr (Or.inr (Or.inl rfl))) (by simp)
        (fun _ => List.cons_ne_nil _ _) (List.forall_mem_cons.mpr ⟨⟨_, _, rfl⟩, haround⟩), ?_⟩
      simp [ParserState.words, statementWords, configWords, Token.words]
  | closing =>
    cases h with
    | @boundary top below blocks last hl hstart hblock haround =>
      rcases below with - | ⟨b, below⟩
      · cases last <;> cases hs
      · rw [List.forall_mem_cons] at haround
        obtain ⟨⟨cfg, words, rfl⟩, haround⟩ := haround
        have hne : last ≠ .start := fun h => absurd (hstart h) (List.cons_ne_nil _ _)
        obtain rfl := Control.next.inj ((step_closing hl hne).symm.trans hs)
        refine ⟨.boundary (Or.inr (Or.inr (Or.inr rfl))) (by simp) (by simp)
          haround, ?_⟩
        simp [ParserState.words, statementWords, configWords, Token.words]
    | @statement cfg words below blocks haround => cases below <;> cases hs

/-- The words of the config, where the blocks are open. -/
theorem Reading.config_words {s : ParserState} (h : Reading s) : configWords s.config = s.words := by
  have hfold (top : NginxConfig) {below : List NginxConfig} (haround : ∀ b ∈ below, Opened b) :
      configWords (below.foldl (fun block parent => modifyLast (setBlock block) parent) top) =
        below.reverse.flatMap configWords ++ configWords top := by
    induction below generalizing top with
    | nil => rfl
    | cons b below ih =>
      rw [List.forall_mem_cons] at haround
      obtain ⟨⟨before, words, rfl⟩, haround⟩ := haround
      rw [List.foldl_cons, modifyLast_concat, setBlock, ih _ haround]
      simp [statementWords, configWords]
  cases h with
  | boundary _ _ _ haround => exact hfold _ haround
  | statement haround => exact hfold _ haround

/-- **The words that have been read stay in the config**, whatever follows. -/
theorem Reading.words_run {s : ParserState} (h : Reading s) {ts : List Token}
    (hw : ∀ w, Token.word w ∈ ts → Word w) (last : Last) :
    s.words <+: configWords (runTokens s ts last).2.config := by
  induction ts generalizing s with
  | nil => exact ⟨[], by rw [List.append_nil, config_run_nil, h.config_words]⟩
  | cons t ts ih =>
    rcases hs : parseStep s t.type t.value with s' | ⟨ret, s'⟩
    · obtain ⟨hreading, hwords⟩ := h.next (fun w ht => hw w (ht ▸ List.mem_cons_self)) hs
      have hmore : s.words <+: s'.words := ⟨_, hwords.symm⟩
      rw [run_next hs]
      exact hmore.trans (ih hreading fun w hmem => hw w (List.mem_cons_of_mem _ hmem))
    · exact ⟨[], by rw [List.append_nil, run_stop hs, (parseStep_stop hs).1, h.config_words]⟩

/-- The state after tokens that have been read. -/
theorem Reading.read {s s' : ParserState} (h : Reading s) {ts : List Token}
    (hw : ∀ w, Token.word w ∈ ts → Word w) (hread : readTokens s ts = some s') : Reading s' := by
  induction ts generalizing s with
  | nil =>
    obtain rfl := Option.some.inj hread
    exact h
  | cons t ts ih =>
    rw [readTokens] at hread
    split at hread
    · next hs =>
      obtain ⟨hreading, -⟩ := h.next (fun w ht => hw w (ht ▸ List.mem_cons_self)) hs
      exact ih hreading (fun w hmem => hw w (List.mem_cons_of_mem _ hmem)) hread
    · cases hread

/-! ## What begins a valid config -/

theorem lexes_closings (n : Nat) :
    Lexes (List.replicate n ('\x7d' : Byte)) (List.replicate n .closing) .nothing := by
  induction n with
  | zero => exact .nil
  | succ n ih => exact .closing ih

/-- The open blocks are closed one after the other. -/
theorem run_closings {top : NginxConfig} {below blocks : List NginxConfig} {last : TokenType}
    (hl : Boundary last) (hstart : last = .start → below = []) (hblock : last = .startBlock → below ≠ [])
    (haround : ∀ b ∈ below, Opened b) :
    (runTokens ⟨top, below, below.length, last, blocks⟩ (List.replicate below.length .closing)
      .nothing).1 = true := by
  induction below generalizing top last blocks with
  | nil =>
    have heof : parseStep ⟨top, [], 0, last, blocks⟩ Last.nothing.type Last.nothing.value =
        .stop true ⟨top, [], 0, last, blocks⟩ := step_eof rfl trivial hl fun h => hblock h rfl
    rw [List.length_nil, List.replicate_zero, runTokens, heof]
  | cons b below ih =>
    rw [List.forall_mem_cons] at haround
    obtain ⟨⟨before, words, rfl⟩, haround⟩ := haround
    have hne : last ≠ .start := fun h => absurd (hstart h) (List.cons_ne_nil _ _)
    rw [List.length_cons, List.replicate_succ, run_next (step_closing hl hne)]
    exact ih (Or.inr (Or.inr (Or.inr rfl))) (by simp) (by simp) haround

/-- What ends the statement and closes the blocks. -/
theorem Reading.completes {s : ParserState} (h : Reading s) :
    ∃ more us, Lexes more us .nothing ∧ (runTokens s us .nothing).1 = true := by
  cases h with
  | boundary hl hstart hblock haround =>
    exact ⟨_, _, lexes_closings _, run_closings hl hstart hblock haround⟩
  | @statement cfg words below blocks haround =>
    refine ⟨_, _, .semicolon (lexes_closings below.length), ?_⟩
    rw [run_next step_semicolon]
    exact run_closings (Or.inr (Or.inl rfl)) (by simp) (by simp) haround

section Begins

variable {u : Bytes} {ts : List Token}

/-- **What has been read begins a valid config.** -/
theorem exists_valid (h : Lexes u ts .nothing) {s : ParserState}
    (hread : readTokens .initial ts = some s) : ∃ more cfg, Valid (u ++ more) cfg := by
  obtain ⟨more, us, hmore, htrue⟩ := (reading_initial.read h.word hread).completes
  have hlex := h.append hmore
  rw [← run_read hread, ← parseLoop_of_lexes hlex] at htrue
  obtain ⟨-, cfg, hd⟩ := derives_of_parse hlex htrue
  exact ⟨more, cfg, _, .nothing, [], hlex, rfl, by rwa [List.append_nil]⟩

/-- **What begins a valid config is read.** -/
theorem exists_read (h : Lexes u ts .nothing) {more : Bytes} {cfg : NginxConfig}
    (hv : Valid (u ++ more) cfg) : ∃ s, readTokens .initial ts = some s := by
  obtain ⟨us, last, hmore⟩ := exists_lexes more
  rcases hread : readTokens .initial ts with - | s
  · obtain ⟨s', hrun⟩ := run_unread hread
    have htrue := (parse_of_valid hv).1
    rw [parse, parseLoop_of_lexes (h.append hmore), hrun] at htrue
    cases htrue
  · exact ⟨s, rfl⟩

end Begins

/-! ## Both configs -/

/-- Where no word that is read ends a line, the two texts differ in nothing that is read. -/
theorem keepsConfig_of_not_endsLine {s : Bytes} (hcr : ('\r' : Byte) ∉ s) (hquote : ¬ BreaksQuote s)
    (h : ¬ WordEndsLine s) : KeepsConfig s := by
  obtain ⟨ts, last, hlex⟩ := exists_lexes s
  have hquoted : ∀ w, QuotedWord w → Token.word w ∈ ts → ('\n' : Byte) ∉ w :=
    fun w hw hmem hn => hquote ⟨ts, last, w, hlex, hmem, hw, hn⟩
  rw [KeepsConfig, parse, parse]
  rcases firstWord_or_steady hlex hcr hquoted with hsame | ⟨u, w, t, us, hfirst⟩
  · rw [parseLoop_of_lexes hsame, parseLoop_of_lexes hlex]
    exact run_toCrlf .initial ts last
  · rcases hread : readTokens .initial us with - | s'
    · obtain ⟨s', hrun⟩ := run_unread hread
      obtain ⟨rs, l, hbefore⟩ := hfirst.lexes
      obtain ⟨rs', l', hafter⟩ := hfirst.lexes_toCrlf
      rw [parseLoop_of_lexes hbefore, parseLoop_of_lexes hafter, hrun, hrun]
      exact ⟨rfl, rfl⟩
    · have hbegins := exists_valid hfirst.steady.before hread
      exact absurd ⟨u, w, t, us, hfirst.text, hfirst.steady.before, hfirst.word, hbegins⟩ h

/-- A word that is read is in the config, with the `\r` behind it or without. -/
theorem FirstWord.not_keepsConfig {s u w t : Bytes} {ts : List Token} (h : FirstWord s u w t ts)
    {s' : ParserState} (hread : readTokens .initial ts = some s') : ¬ KeepsConfig s := by
  have hreading := reading_initial.read h.steady.before.word hread
  have hprefix {x v : Bytes} {us : List Token} {last : Last} (hv : OrdinaryWord v)
      (hlex : Lexes x (ts ++ .word v :: us) last) :
      s'.words ++ [v] <+: configWords (parse x).2.config := by
    obtain ⟨s₁, hs₁, hreading₁, hwords₁⟩ := hreading.next_word (Or.inl hv)
    have hus : ∀ w, Token.word w ∈ us → Word w := fun w hw =>
      hlex.word w (List.mem_append_right ts (List.mem_cons_of_mem _ hw))
    rw [parse, parseLoop_of_lexes hlex, run_read hread, run_next hs₁, ← hwords₁]
    exact hreading₁.words_run hus last
  rintro ⟨-, hconfig⟩
  obtain ⟨us, last, hbefore⟩ := h.lexes
  obtain ⟨us', last', hafter⟩ := h.lexes_toCrlf
  have hword := hprefix h.word hbefore
  have hword' := hprefix h.word.concat_cr hafter
  rw [hconfig] at hword'
  have heq : s'.words ++ [w] = s'.words ++ [w ++ [('\r' : Byte)]] :=
    (List.prefix_of_prefix_length_le hword hword' (by simp)).eq_of_length (by simp)
  have hlen := congrArg List.length (List.cons.inj (List.append_cancel_left heq)).1
  rw [List.length_append, List.length_singleton] at hlen
  omega

theorem not_keepsConfig_of_endsLine {s : Bytes} (hcr : ('\r' : Byte) ∉ s) (hquote : ¬ BreaksQuote s)
    (h : WordEndsLine s) : ¬ KeepsConfig s := by
  obtain ⟨u, w, t, ts, rfl, hlex, hw, more, cfg, hv⟩ := h
  rw [List.mem_append, not_or] at hcr
  have hquoted : ∀ w, QuotedWord w → Token.word w ∈ ts → ('\n' : Byte) ∉ w := by
    intro w' hw' hmem hn
    obtain ⟨us, last, ht⟩ := exists_lexes (w ++ ('\n' : Byte) :: t)
    exact hquote ⟨_, last, w', hlex.append ht, List.mem_append_left us hmem, hw', hn⟩
  rcases firstWord_or_steady hlex hcr.1 hquoted with hsame | ⟨u, w', t', us, rfl, hsteady, hw'⟩
  · obtain ⟨s', hread⟩ := exists_read hlex hv
    have hfirst : FirstWord (u ++ (w ++ ('\n' : Byte) :: t)) u w t ts := ⟨rfl, ⟨hlex, hsame⟩, hw⟩
    exact hfirst.not_keepsConfig hread
  · -- an earlier word ends a line too
    rw [List.append_assoc] at hv
    obtain ⟨s', hread⟩ := exists_read hsteady.before hv
    have hfirst : FirstWord (u ++ (w' ++ ('\n' : Byte) :: t') ++ (w ++ ('\n' : Byte) :: t)) u w'
        (t' ++ (w ++ ('\n' : Byte) :: t)) us := ⟨by simp, hsteady, hw'⟩
    exact hfirst.not_keepsConfig hread

/-- **Line endings do not change a config** exactly if no word that `Parse` reads ends a line. -/
theorem keepsConfig_iff {s : Bytes} (hcr : ('\r' : Byte) ∉ s) (hquote : ¬ BreaksQuote s) :
    KeepsConfig s ↔ ¬ WordEndsLine s :=
  ⟨fun hkeeps h => not_keepsConfig_of_endsLine hcr hquote h hkeeps,
    keepsConfig_of_not_endsLine hcr hquote⟩

section Ports

theorem ordinary_port : OrdinaryWord (str "port") := .mk rfl (by simp; decide)

theorem ordinary_eighty : OrdinaryWord (str "80") := .mk rfl (by simp; decide)

theorem lexes_port {s : Bytes} {ts : List Token} {last : Last} (h : Lexes s ts last) :
    Lexes (str "port " ++ s) (.word (str "port") :: ts) last :=
  .ordinary (e := ' ') ordinary_port rfl (.blank rfl h)

/-- The tokens are two words and punctuation, so no string is broken. -/
theorem not_breaksQuote_port {s : Bytes}
    (h : Lexes s [.word (str "port"), .word (str "80"), .semicolon] .nothing) : ¬ BreaksQuote s := by
  rintro ⟨ts, last, w, hlex, hmem, hw, hn⟩
  obtain ⟨rfl, -⟩ := lexes_unique hlex h
  simp only [List.mem_cons, Token.word.injEq, List.not_mem_nil, or_false, reduceCtorEq] at hmem
  rcases hmem with rfl | rfl
  · exact ordinary_port.no_newline hn
  · exact ordinary_eighty.no_newline hn

/-- The theorem at a line that ends behind its semicolon. -/
theorem keepsConfig_iff_port :
    KeepsConfig (str "port 80;\n") ↔ ¬ WordEndsLine (str "port 80;\n") :=
  keepsConfig_iff (by decide) <| not_breaksQuote_port <|
    lexes_port (.ordinary (e := ';') ordinary_eighty rfl (.semicolon (.blank rfl .nil)))

/-- A line that ends before its semicolon: the port is `80` with `\n`, and `80\r` with `\r\n`. -/
theorem not_keepsConfig_port :
    ¬ ∀ s, ('\r' : Byte) ∉ s → ¬ BreaksQuote s → KeepsConfig s := by
  intro h
  have hlex : Lexes (str "port 80\n;") [.word (str "port"), .word (str "80"), .semicolon] .nothing :=
    lexes_port (.ordinary (e := '\n') ordinary_eighty rfl (.blank rfl (.semicolon .nil)))
  have hderives : Derives [.word (str "port"), .word (str "80"), .semicolon] _ :=
    @Derives.simple [str "port", str "80"] [] [] (List.cons_ne_nil _ _) .nil
  have hvalid : Valid (str "port 80\n;") _ := ⟨_, .nothing, [], hlex, rfl, hderives⟩
  have hquote := not_breaksQuote_port hlex
  have hcr : ('\r' : Byte) ∉ str "port 80\n;" := by decide
  have hends : WordEndsLine (str "port 80\n;") :=
    ⟨str "port ", str "80", str ";", _, rfl, lexes_port .nil, ordinary_eighty, str "80\n;", _, hvalid⟩
  exact not_keepsConfig_of_endsLine hcr hquote hends (h _ hcr hquote)

end Ports

end NginxConfigParser

end LowKeyWebServer
