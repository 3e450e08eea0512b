import LowKeyWebServer.ConfigGrammar

/-!
# The config parser against its grammar

`Parse` is run token by token (`parseLoop_of_lexes`); a derivation is followed through the
two stacks by induction on it (`run_derives`), and a run that returns true is a derivation,
by induction on the tokens (`run_sound`). `parse_iff_valid` is the exact condition under
which `Parse` returns true on the valid configs only: the text does not end in a word that
only the end of the text ends.
-/

namespace LowKeyWebServer

namespace NginxConfigParser

/-! ## Parse, token by token -/

/-- The loop of `Parse` over a split. -/
def runTokens (s : ParserState) : List Token → Last → Bool × ParserState
  | [], last =>
    match parseStep s last.type last.value with
    | .stop ret s' => (ret, s')
    | .next s' => (false, s')
  | t :: ts, last =>
    match parseStep s t.type t.value with
    | .stop ret s' => (ret, s')
    | .next s' => runTokens s' ts last

theorem run_next {s s' : ParserState} {t : Token} (h : parseStep s t.type t.value = .next s')
    (ts : List Token) (last : Last) : runTokens s (t :: ts) last = runTokens s' ts last := by
  rw [runTokens, h]

theorem run_stop {s s' : ParserState} {t : Token} {ret : Bool}
    (h : parseStep s t.type t.value = .stop ret s') (ts : List Token) (last : Last) :
    runTokens s (t :: ts) last = (ret, s') := by
  rw [runTokens, h]

/-- One turn of the loop. -/
theorem parseLoop_eq {s : ParserState} {input token rest : Bytes} {tokenType : TokenType}
    (hp : parseToken input = (tokenType, token, rest)) :
    parseLoop s input =
      match parseStep s tokenType token with
      | .stop ret s' => (ret, s')
      | .next s' => parseLoop s' rest := by
  rw [parseLoop]
  split
  next hp' =>
  obtain ⟨rfl, hpair⟩ := Prod.mk.inj (hp.symm.trans hp')
  obtain ⟨rfl, rfl⟩ := Prod.mk.inj hpair
  split <;> next hs => simp only [hs]

theorem parseLoop_stop {s s' : ParserState} {input token rest : Bytes} {tokenType : TokenType}
    {ret : Bool} (hp : parseToken input = (tokenType, token, rest))
    (hs : parseStep s tokenType token = .stop ret s') : parseLoop s input = (ret, s') := by
  rw [parseLoop_eq hp, hs]

theorem parseLoop_next {s s' : ParserState} {input token rest : Bytes} {tokenType : TokenType}
    (hp : parseToken input = (tokenType, token, rest))
    (hs : parseStep s tokenType token = .next s') : parseLoop s input = parseLoop s' rest := by
  rw [parseLoop_eq hp, hs]

/-- The end of the text ends the loop. -/
theorem parseStep_last (s : ParserState) (last : Last) :
    ∃ ret s', parseStep s last.type last.value = .stop ret s' := by
  rcases h : parseStep s last.type last.value with s' | ⟨ret, s'⟩
  · obtain ⟨heof, herr⟩ := ne_of_parseStep_next h
    cases last <;> first | exact absurd rfl heof | exact absurd rfl herr
  · exact ⟨ret, s', rfl⟩

/-- `Parse` runs over the split of its text. -/
theorem parseLoop_of_lexes {ts : List Token} {last : Last} {input : Bytes}
    (h : Lexes input ts last) (s : ParserState) : parseLoop s input = runTokens s ts last := by
  induction ts generalizing input s with
  | nil =>
    rcases h.step with ⟨-, -, hp⟩ | ⟨t, ts', rest, hts, -⟩
    · obtain ⟨ret, s', hs⟩ := parseStep_last s last
      rw [parseLoop_stop hp hs, runTokens, hs]
    · cases hts
  | cons t ts ih =>
    rcases h.step with ⟨hts, -⟩ | ⟨t', ts', rest, hts, hp, hrest⟩
    · cases hts
    · obtain ⟨rfl, rfl⟩ := List.cons.inj hts
      rcases hs : parseStep s t.type t.value with s' | ⟨ret, s'⟩
      · rw [parseLoop_next hp hs, run_next hs]
        exact ih hrest s'
      · rw [parseLoop_stop hp hs, run_stop hs]

/-! ## One token -/

theorem modifyLast_concat (f : NginxConfigStatement → NginxConfigStatement) (cfg : NginxConfig)
    (s : NginxConfigStatement) : modifyLast f (cfg ++ [s]) = cfg ++ [f s] := by
  induction cfg with
  | nil => rfl
  | cons s' cfg ih =>
    rcases cfg with - | ⟨s'', cfg⟩
    · rfl
    · rw [List.cons_append, List.cons_append] at ih ⊢
      rw [List.cons_append, modifyLast, ih]
      · rfl
      · exact List.cons_ne_nil _ _

/-- A token type after which a statement may start. -/
def Boundary (t : TokenType) : Prop :=
  t = .start ∨ t = .statementEnd ∨ t = .startBlock ∨ t = .endBlock

section Steps

variable {cfg outer : NginxConfig} {below blocks : List NginxConfig} {braces n : Nat}
  {last : TokenType} {words : List Bytes} {child : Option NginxConfig} {w token : Bytes}

theorem Boundary.ne_normal (hl : Boundary last) : last ≠ .normal := by
  rintro rfl
  obtain h | h | h | h := hl <;> cases h

/-- The types after which a word may come. -/
theorem word_allowed_iff : (last = .start ∨ last = .statementEnd ∨ last = .startBlock ∨
    last = .endBlock ∨ last = .normal) ↔ Boundary last ∨ last = .normal := by
  simp only [Boundary, or_assoc]

/-- The types after which a block may not end. -/
theorem closing_refused_iff : (last ≠ .statementEnd ∧ last ≠ .endBlock ∧ last ≠ .startBlock) ↔
    ¬ (Boundary last ∧ last ≠ .start) := by
  cases last <;> simp [Boundary]

/-- The first word of a statement. -/
theorem parseStep_first (hb : trackBraces braces token = some n) (hl : Boundary last) :
    parseStep ⟨cfg, below, braces, last, blocks⟩ .normal token =
      .next ⟨cfg ++ [.mk [token] none], below, n, .normal, blocks⟩ := by
  rw [parseStep, hb]
  dsimp only
  rw [if_pos (word_allowed_iff.mpr (Or.inl hl)), if_pos hl.ne_normal, modifyLast_concat]
  rfl

/-- One more word of a statement. -/
theorem parseStep_word (hb : trackBraces braces token = some n) :
    parseStep ⟨cfg ++ [.mk words child], below, braces, .normal, blocks⟩ .normal token =
      .next ⟨cfg ++ [.mk (words ++ [token]) child], below, n, .normal, blocks⟩ := by
  rw [parseStep, hb]
  dsimp only
  rw [if_pos (word_allowed_iff.mpr (Or.inr rfl)), if_neg (not_not.mpr rfl), modifyLast_concat]
  rfl

/-- The start of a block. -/
theorem parseStep_opening (hb : trackBraces braces token = some n) :
    parseStep ⟨cfg ++ [.mk words child], below, braces, .normal, blocks⟩ .startBlock token =
      .next ⟨[], (cfg ++ [.mk words (some [])]) :: below, n, .startBlock, blocks⟩ := by
  rw [parseStep, hb]
  dsimp only
  rw [if_neg (not_not.mpr rfl), modifyLast_concat]
  rfl

/-- The end of a block: its contents go into the last statement of the block around it. -/
theorem parseStep_closing (hb : trackBraces braces token = some n) (hl : Boundary last)
    (hs : last ≠ .start) :
    parseStep ⟨cfg, (outer ++ [.mk words child]) :: below, braces, last, blocks⟩ .endBlock token =
      .next ⟨outer ++ [.mk words (some cfg)], below, n, .endBlock, blocks ++ [cfg]⟩ := by
  rw [parseStep, hb]
  dsimp only
  rw [if_neg (mt closing_refused_iff.mp (not_not.mpr ⟨hl, hs⟩)), modifyLast_concat]
  rfl

theorem trackBraces_word (hw : Word w) (braces : Nat) : trackBraces braces w = some braces := by
  rw [trackBraces, if_neg (hw.head_ne (by decide) (by decide)),
    if_neg (hw.head_ne (by decide) (by decide))]

theorem step_comment (s : ParserState) (text : Bytes) :
    parseStep s (Token.comment text).type (Token.comment text).value = .next s := rfl

theorem step_first (hw : Word w) (hl : Boundary last) :
    parseStep ⟨cfg, below, braces, last, blocks⟩ (Token.word w).type (Token.word w).value =
      .next ⟨cfg ++ [.mk [w] none], below, braces, .normal, blocks⟩ :=
  parseStep_first (trackBraces_word hw braces) hl

theorem step_word (hw : Word w) :
    parseStep ⟨cfg ++ [.mk words child], below, braces, .normal, blocks⟩ (Token.word w).type
        (Token.word w).value =
      .next ⟨cfg ++ [.mk (words ++ [w]) child], below, braces, .normal, blocks⟩ :=
  parseStep_word (trackBraces_word hw braces)

theorem step_semicolon :
    parseStep ⟨cfg, below, braces, .normal, blocks⟩ Token.semicolon.type Token.semicolon.value =
      .next ⟨cfg, below, braces, .statementEnd, blocks⟩ := rfl

theorem step_opening :
    parseStep ⟨cfg ++ [.mk words child], below, braces, .normal, blocks⟩ Token.opening.type
        Token.opening.value =
      .next ⟨[], (cfg ++ [.mk words (some [])]) :: below, braces + 1, .startBlock, blocks⟩ :=
  parseStep_opening rfl

theorem step_closing (hl : Boundary last) (hs : last ≠ .start) :
    parseStep ⟨cfg, (outer ++ [.mk words child]) :: below, braces + 1, last, blocks⟩
        Token.closing.type Token.closing.value =
      .next ⟨outer ++ [.mk words (some cfg)], below, braces, .endBlock, blocks ++ [cfg]⟩ :=
  parseStep_closing rfl hl hs

/-- Punctuation that needs a word before it. -/
theorem run_boundary_false (hl : Boundary last) {t : Token} (ht : t = .semicolon ∨ t = .opening)
    (ts : List Token) (l : Last) :
    (runTokens ⟨cfg, below, braces, last, blocks⟩ (t :: ts) l).1 = false := by
  obtain rfl | rfl := ht <;> obtain rfl | rfl | rfl | rfl := hl <;> rfl

/-- A closing brace after a word. -/
theorem run_closing_normal (ts : List Token) (l : Last) :
    (runTokens ⟨cfg, below, braces, .normal, blocks⟩ (.closing :: ts) l).1 = false := by
  cases braces <;> rfl

/-- A closing brace outside of any block. -/
theorem run_closing_outer (ts : List Token) (l : Last) :
    (runTokens ⟨cfg, [], braces, last, blocks⟩ (.closing :: ts) l).1 = false := by
  rcases braces with - | n
  · rfl
  · cases last <;> rfl

/-- The end of the text where it may end. -/
theorem step_eof {l : Last} (heof : l.type = .eof) (hok : l.Ok) (hl : Boundary last)
    (hs : last ≠ .startBlock) :
    parseStep ⟨cfg, [], 0, last, blocks⟩ l.type l.value = .stop true ⟨cfg, [], 0, last, blocks⟩ := by
  have htrack : trackBraces 0 l.value = some 0 := by
    cases l with
    | nothing => rfl
    | word w => exact trackBraces_word (Or.inl hok) 0
    | comment text => rfl
    | quote text => cases heof
  rw [parseStep, htrack, heof]
  obtain rfl | rfl | rfl | rfl := hl
  · rfl
  · rfl
  · exact absurd rfl hs
  · rfl

/-- The end of the text returns true only outside of any block, and not after a word. -/
theorem step_last_true {l : Last} {s' : ParserState}
    (h : parseStep ⟨cfg, below, braces, last, blocks⟩ l.type l.value = .stop true s') :
    l.type = .eof ∧ below = [] ∧ last ≠ .normal := by
  rw [parseStep] at h
  split at h
  · cases h
  · cases l <;> simp only [Last.type] at h
    case quote => cases h
    all_goals
      split at h
      · cases h
      · next hl =>
        split at h
        · cases h
        · next hb =>
          refine ⟨rfl, not_not.mp hb, ?_⟩
          rintro rfl
          exact hl ⟨by decide, by decide, by decide⟩

end Steps

/-! ## A derivation is run through -/

/-- The type of the last token of a statement. -/
def statementType : NginxConfigStatement → TokenType
  | .mk _ none => .statementEnd
  | .mk _ (some _) => .endBlock

/-- The type of the last token after these statements. -/
def lastType (last : TokenType) : NginxConfig → TokenType
  | [] => last
  | s :: cfg => lastType (statementType s) cfg

mutual

/-- The blocks of a statement, in the order in which they are closed. -/
def statementClosedBlocks : NginxConfigStatement → List NginxConfig
  | .mk _ none => []
  | .mk _ (some block) => configClosedBlocks block ++ [block]

/-- The blocks in a config, in the order in which they are closed. -/
def configClosedBlocks : List NginxConfigStatement → List NginxConfig
  | [] => []
  | s :: cfg => statementClosedBlocks s ++ configClosedBlocks cfg

end

theorem boundary_lastType {last : TokenType} (hl : Boundary last) (cfg : NginxConfig) :
    Boundary (lastType last cfg) := by
  induction cfg generalizing last with
  | nil => exact hl
  | cons s cfg ih =>
    refine ih ?_
    rcases s with ⟨words, - | block⟩
    · exact Or.inr (Or.inl rfl)
    · exact Or.inr (Or.inr (Or.inr rfl))

theorem lastType_ne {t : TokenType} (ht : t ≠ .statementEnd ∧ t ≠ .endBlock) {last : TokenType}
    (hl : last ≠ t) (cfg : NginxConfig) : lastType last cfg ≠ t := by
  induction cfg generalizing last with
  | nil => exact hl
  | cons s cfg ih =>
    refine ih ?_
    rcases s with ⟨words, - | block⟩
    · exact ht.1.symm
    · exact ht.2.symm

section Run

variable {below blocks : List NginxConfig} {braces : Nat} {last : TokenType}

/-- The words of a statement are collected. -/
theorem run_words {words : List Bytes} (hne : words ≠ []) (hw : ∀ w ∈ words, Word w)
    (hl : Boundary last) (cfg : NginxConfig) (ts : List Token) (l : Last) :
    runTokens ⟨cfg, below, braces, last, blocks⟩ (words.map Token.word ++ ts) l =
      runTokens ⟨cfg ++ [.mk words none], below, braces, .normal, blocks⟩ ts l := by
  have hmore : ∀ us vs : List Bytes, (∀ w ∈ us, Word w) →
      runTokens ⟨cfg ++ [.mk vs none], below, braces, .normal, blocks⟩ (us.map Token.word ++ ts) l =
        runTokens ⟨cfg ++ [.mk (vs ++ us) none], below, braces, .normal, blocks⟩ ts l := by
    intro us
    induction us with
    | nil =>
      intro vs _
      rw [List.map_nil, List.nil_append, List.append_nil]
    | cons u us ih =>
      intro vs hus
      rw [List.forall_mem_cons] at hus
      rw [List.map_cons, List.cons_append, run_next (step_word hus.1), ih _ hus.2, List.append_assoc,
        List.singleton_append]
  rcases words with - | ⟨w, words⟩
  · exact absurd rfl hne
  · rw [List.forall_mem_cons] at hw
    rw [List.map_cons, List.cons_append, run_next (step_first hw.1 hl), hmore words [w] hw.2,
      List.singleton_append]

/-- A block is run through: its derivation and its closing brace. -/
theorem step_closing_after (top child : NginxConfig) (words : List Bytes) :
    parseStep ⟨child, (top ++ [.mk words (some [])]) :: below, braces + 1, lastType .startBlock child,
        blocks⟩ Token.closing.type Token.closing.value =
      .next ⟨top ++ [.mk words (some child)], below, braces, .endBlock, blocks ++ [child]⟩ :=
  step_closing (boundary_lastType (Or.inr (Or.inr (Or.inl rfl))) child)
    (lastType_ne ⟨by decide, by decide⟩ (by decide) child)

/-- **A derivation is run through**: its tree is added to the block under construction, and
the blocks in it are closed. -/
theorem run_derives {ts : List Token} {cfg : NginxConfig} (h : Derives ts cfg)
    (hw : ∀ w, Token.word w ∈ ts → Word w) (hl : Boundary last) (top : NginxConfig)
    (ts' : List Token) (l : Last) :
    runTokens ⟨top, below, braces, last, blocks⟩ (ts ++ ts') l =
      runTokens ⟨top ++ cfg, below, braces, lastType last cfg, blocks ++ configClosedBlocks cfg⟩
        ts' l := by
  induction h generalizing top below braces last blocks ts' with
  | nil => rw [List.nil_append, List.append_nil, configClosedBlocks, List.append_nil, lastType]
  | @simple words ts cfg hne _ ih =>
    have hwords : ∀ w ∈ words, Word w := fun w hmem =>
      hw w (List.mem_append_left _ (List.mem_map_of_mem hmem))
    have hrest : ∀ w, Token.word w ∈ ts → Word w := fun w hmem =>
      hw w (List.mem_append_right _ (List.mem_cons_of_mem _ hmem))
    rw [List.append_assoc, run_words hne hwords hl, List.cons_append, run_next step_semicolon,
      ih hrest (Or.inr (Or.inl rfl))]
    simp [lastType, statementType, configClosedBlocks, statementClosedBlocks]
  | @block words inner ts child cfg hne _ _ ihi ih =>
    have hwords : ∀ w ∈ words, Word w := fun w hmem =>
      hw w (List.mem_append_left _ (List.mem_map_of_mem hmem))
    have hinner : ∀ w, Token.word w ∈ inner → Word w := fun w hmem =>
      hw w (List.mem_append_right _ (List.mem_cons_of_mem _ (List.mem_append_left _ hmem)))
    have hrest : ∀ w, Token.word w ∈ ts → Word w := fun w hmem =>
      hw w (List.mem_append_right _ (List.mem_cons_of_mem _
        (List.mem_append_right _ (List.mem_cons_of_mem _ hmem))))
    have hstart : Boundary .startBlock := Or.inr (Or.inr (Or.inl rfl))
    rw [List.append_assoc, run_words hne hwords hl, List.cons_append, run_next step_opening,
      List.append_assoc, ihi hinner hstart, List.nil_append, List.cons_append,
      run_next (step_closing_after top child words),
      ih hrest (Or.inr (Or.inr (Or.inr rfl)))]
    simp [lastType, statementType, configClosedBlocks, statementClosedBlocks]

/-! ## A run that returns true is a derivation -/

/-- The words at the front of some tokens. -/
theorem exists_words (ts : List Token) : ∃ (words : List Bytes) (ts' : List Token),
    ts = words.map Token.word ++ ts' ∧ ∀ w r, ts' ≠ .word w :: r := by
  induction ts with
  | nil => exact ⟨[], [], rfl, fun _ _ h => by cases h⟩
  | cons t ts ih =>
    cases t with
    | word w =>
      obtain ⟨words, ts', rfl, h⟩ := ih
      exact ⟨w :: words, ts', rfl, h⟩
    | semicolon | opening | closing | comment => exact ⟨[], _, rfl, fun _ _ h => by cases h⟩

/-- At the end of the tokens a run returns true only outside of any block, and not after
a word. -/
theorem run_nil_true {cfg : NginxConfig} {l : Last}
    (h : (runTokens ⟨cfg, below, braces, last, blocks⟩ [] l).1 = true) :
    l.type = .eof ∧ below = [] ∧ last ≠ .normal := by
  obtain ⟨ret, s', hs⟩ := parseStep_last ⟨cfg, below, braces, last, blocks⟩ l
  rw [runTokens, hs] at h
  obtain rfl : ret = true := h
  exact step_last_true hs

/-- **A run that returns true is a derivation**, up to the end or the closing brace of the
block it starts in; by induction on the number of tokens. -/
theorem run_sound (n : Nat) : ∀ ts : List Token, ts.length ≤ n →
    (∀ t ∈ ts, t.significant = true) → (∀ w, Token.word w ∈ ts → Word w) →
    ∀ (cfg : NginxConfig) (below blocks : List NginxConfig) (braces : Nat) (last : TokenType)
      (l : Last), Boundary last →
    (runTokens ⟨cfg, below, braces, last, blocks⟩ ts l).1 = true →
    ∃ ts₁ cfg₁, Derives ts₁ cfg₁ ∧ (ts = ts₁ ∨ ∃ ts₂, ts = ts₁ ++ .closing :: ts₂) := by
  induction n with
  | zero =>
    intro ts hts _ _ _ _ _ _ _ _ _ _
    obtain rfl : ts = [] := List.eq_nil_of_length_eq_zero (by omega)
    exact ⟨[], [], .nil, Or.inl rfl⟩
  | succ n ih =>
    intro ts hts hsig hword cfg below blocks braces last l hl hrun
    obtain ⟨words, ts', rfl, hts'⟩ := exists_words ts
    have hsig' : ∀ t ∈ ts', t.significant = true := fun t ht => hsig t (List.mem_append_right _ ht)
    have hword' : ∀ w, Token.word w ∈ ts' → Word w := fun w hw => hword w (List.mem_append_right _ hw)
    rcases words with - | ⟨w₀, words⟩
    · -- no word: the end, or a closing brace
      rw [List.map_nil, List.nil_append] at hrun ⊢
      rcases ts' with - | ⟨t, ts'⟩
      · exact ⟨[], [], .nil, Or.inl rfl⟩
      · cases t with
        | word w => exact absurd rfl (hts' w ts')
        | closing => exact ⟨[], [], .nil, Or.inr ⟨ts', rfl⟩⟩
        | comment text => exact absurd (hsig' _ List.mem_cons_self) Bool.false_ne_true
        | semicolon =>
          rw [run_boundary_false hl (Or.inl rfl)] at hrun
          cases hrun
        | opening =>
          rw [run_boundary_false hl (Or.inr rfl)] at hrun
          cases hrun
    · have hne : w₀ :: words ≠ [] := List.cons_ne_nil _ _
      have hwords : ∀ w ∈ w₀ :: words, Word w := fun w hw =>
        hword w (List.mem_append_left _ (List.mem_map_of_mem hw))
      rw [run_words hne hwords hl] at hrun
      generalize hws : w₀ :: words = ws at *
      have hlen : ts'.length ≤ n := by
        rw [← hws, List.length_append, List.length_map, List.length_cons] at hts
        omega
      rcases ts' with - | ⟨t, ts'⟩
      · exact absurd rfl (run_nil_true hrun).2.2
      · rw [List.forall_mem_cons] at hsig'
        have hrest : ∀ w, Token.word w ∈ ts' → Word w := fun w hw =>
          hword' w (List.mem_cons_of_mem _ hw)
        rw [List.length_cons] at hlen
        cases t with
        | word w => exact absurd rfl (hts' w ts')
        | comment text => exact absurd hsig'.1 Bool.false_ne_true
        | closing =>
          rw [run_closing_normal] at hrun
          cases hrun
        | semicolon =>
          rw [run_next step_semicolon] at hrun
          obtain ⟨ts₁, cfg₁, hd, hcase⟩ := ih ts' (by omega) hsig'.2 hrest _ _ _ _ _ _
            (Or.inr (Or.inl rfl)) hrun
          refine ⟨_, _, .simple hne hd, ?_⟩
          rcases hcase with rfl | ⟨ts₂, rfl⟩
          · exact Or.inl rfl
          · exact Or.inr ⟨ts₂, by simp⟩
        | opening =>
          have hstart : Boundary .startBlock := Or.inr (Or.inr (Or.inl rfl))
          rw [run_next step_opening] at hrun
          obtain ⟨inner, child, hchild, hcase⟩ := ih ts' (by omega) hsig'.2 hrest _ _ _ _ _ _
            hstart hrun
          rcases hcase with rfl | ⟨ts₂, rfl⟩
          · -- the block is not closed
            rw [← List.append_nil ts', run_derives hchild hrest hstart] at hrun
            exact absurd (run_nil_true hrun).2.1 (List.cons_ne_nil _ _)
          · have hinner : ∀ w, Token.word w ∈ inner → Word w := fun w hw =>
              hrest w (List.mem_append_left _ hw)
            rw [run_derives hchild hinner hstart, List.nil_append,
              run_next (step_closing_after cfg child ws)] at hrun
            rw [List.length_append, List.length_cons] at hlen
            obtain ⟨ts₁, cfg₁, hd, hcase⟩ := ih ts₂ (by omega)
              (fun t ht => hsig'.2 t (List.mem_append_right _ (List.mem_cons_of_mem _ ht)))
              (fun w hw => hrest w (List.mem_append_right _ (List.mem_cons_of_mem _ hw)))
              _ _ _ _ _ _ (Or.inr (Or.inr (Or.inr rfl))) hrun
            refine ⟨_, _, .block hne hchild hd, ?_⟩
            rcases hcase with rfl | ⟨ts₃, rfl⟩
            · exact Or.inl rfl
            · exact Or.inr ⟨ts₃, by simp⟩

end Run

/-! ## Parse -/

/-- Comments are skipped. -/
theorem run_significant (ts : List Token) (s : ParserState) (l : Last) :
    runTokens s ts l = runTokens s (ts.filter Token.significant) l := by
  induction ts generalizing s with
  | nil => rfl
  | cons t ts ih =>
    by_cases ht : t.significant = true
    · rw [List.filter_cons_of_pos ht]
      rcases hs : parseStep s t.type t.value with s' | ⟨ret, s'⟩
      · rw [run_next hs, run_next hs]
        exact ih s'
      · rw [run_stop hs, run_stop hs]
    · rw [List.filter_cons_of_neg ht]
      cases t with
      | comment text =>
        rw [run_next (step_comment s text)]
        exact ih s
      | word | semicolon | opening | closing => exact absurd rfl ht

section Parse

variable {s : Bytes} {ts : List Token} {last : Last} {cfg : NginxConfig}

theorem Lexes.significant_word (h : Lexes s ts last) :
    ∀ w, Token.word w ∈ ts.filter Token.significant → Word w :=
  fun w hw => h.word w (List.mem_filter.mp hw).1

/-- **Completeness**: `Parse` returns true on a derivation, with its tree and its blocks. -/
theorem parse_of_derives (h : Lexes s ts last) (hlast : last.type = .eof)
    (hd : Derives (ts.filter Token.significant) cfg) :
    parse s = (true, ⟨cfg, [], 0, lastType .start cfg, configClosedBlocks cfg⟩) := by
  have hl : Boundary .start := Or.inl rfl
  have heof : parseStep ⟨cfg, [], 0, lastType .start cfg, configClosedBlocks cfg⟩ last.type
      last.value = .stop true ⟨cfg, [], 0, lastType .start cfg, configClosedBlocks cfg⟩ :=
    step_eof hlast h.last_ok (boundary_lastType hl cfg)
      (lastType_ne ⟨by decide, by decide⟩ (by decide) cfg)
  rw [parse, ParserState.initial, parseLoop_of_lexes h, run_significant,
    ← List.append_nil (ts.filter _), run_derives hd h.significant_word hl, List.nil_append,
    List.nil_append, runTokens, heof]

/-- **Soundness**: where `Parse` returns true, the finished tokens are a derivation. -/
theorem derives_of_parse (h : Lexes s ts last) (htrue : (parse s).1 = true) :
    last.type = .eof ∧ ∃ cfg, Derives (ts.filter Token.significant) cfg := by
  have hl : Boundary .start := Or.inl rfl
  rw [parse, ParserState.initial, parseLoop_of_lexes h, run_significant] at htrue
  obtain ⟨ts₁, cfg₁, hd, hcase⟩ := run_sound _ _ (Nat.le_refl _)
    (fun t ht => (List.mem_filter.mp ht).2) h.significant_word _ _ _ _ _ _ hl htrue
  have hword := h.significant_word
  rcases hcase with heq | ⟨ts₂, heq⟩
  · rw [heq] at htrue hword ⊢
    rw [← List.append_nil ts₁, run_derives hd hword hl] at htrue
    exact ⟨(run_nil_true htrue).1, cfg₁, hd⟩
  · -- a closing brace outside of any block
    rw [heq] at htrue hword
    rw [run_derives hd (fun w hw => hword w (List.mem_append_left _ hw)) hl,
      run_closing_outer] at htrue
    cases htrue

/-- A derivation does not end in a word. -/
theorem Derives.getLast?_ne {ts : List Token} (h : Derives ts cfg) (w : Bytes) :
    ts.getLast? ≠ some (.word w) := by
  induction h with
  | nil => exact fun h => nomatch h
  | @simple words ts cfg _ _ ih =>
    rw [List.getLast?_append_of_ne_nil _ (List.cons_ne_nil _ _)]
    rcases ts with - | ⟨t, ts⟩
    · exact fun h => nomatch h
    · rwa [List.getLast?_cons_cons]
  | @block words inner ts child cfg _ _ _ _ ih =>
    rw [List.getLast?_append_of_ne_nil _ (List.cons_ne_nil _ _), ← List.cons_append,
      List.getLast?_append_of_ne_nil _ (List.cons_ne_nil _ _)]
    rcases ts with - | ⟨t, ts⟩
    · exact fun h => nomatch h
    · rwa [List.getLast?_cons_cons]

/-- The text is a valid config, then an ordinary word that only the end of the text ends. -/
def DropsWord (s : Bytes) : Prop :=
  ∃ ts w cfg, Lexes s ts (.word w) ∧ Derives (ts.filter Token.significant) cfg

/-- A valid text ends where its last finished token ends. -/
theorem derives_of_valid (h : Lexes s ts last) (hv : Valid s cfg) :
    last.tokens = some [] ∧ Derives (ts.filter Token.significant) cfg := by
  obtain ⟨ts', last', rest, h', hrest, hd⟩ := hv
  obtain ⟨rfl, rfl⟩ := lexes_unique h h'
  cases last with
  | nothing | comment =>
    obtain rfl := Option.some.inj hrest
    rw [List.append_nil] at hd
    exact ⟨rfl, hd⟩
  | word w =>
    obtain rfl := Option.some.inj hrest
    exact absurd List.getLast?_concat (hd.getLast?_ne w)
  | quote => cases hrest

/-- A valid config is accepted, with its tree. -/
theorem parse_of_valid (hv : Valid s cfg) : (parse s).1 = true ∧ (parse s).2.config = cfg := by
  obtain ⟨ts, last, h⟩ := exists_lexes s
  obtain ⟨htokens, hd⟩ := derives_of_valid h hv
  have hlast : last.type = .eof := by
    cases last <;> first | rfl | cases htokens
  rw [parse_of_derives h hlast hd]
  exact ⟨rfl, rfl⟩

/-- A text that ends in a dropped word is accepted, and is no valid config. -/
theorem accepts_of_dropsWord (hdrop : DropsWord s) :
    ∃ cfg, (parse s).1 = true ∧ (parse s).2.config = cfg ∧ ¬ Valid s cfg := by
  obtain ⟨ts, w, cfg, h, hd⟩ := hdrop
  refine ⟨cfg, ?_, ?_, fun hv => ?_⟩
  · rw [parse_of_derives h rfl hd]
  · rw [parse_of_derives h rfl hd]
    rfl
  · cases (derives_of_valid h hv).1

/-- **When `Parse` accepts exactly the valid configs**, each with its tree: when it does not
drop a last word. -/
theorem parse_iff_valid (s : Bytes) :
    (∀ cfg, ((parse s).1 = true ∧ (parse s).2.config = cfg) ↔ Valid s cfg) ↔ ¬ DropsWord s := by
  obtain ⟨ts, last, h⟩ := exists_lexes s
  refine ⟨fun hiff hdrop => ?_, fun hdrop cfg => ⟨?_, fun hcfg => ?_⟩⟩
  · obtain ⟨cfg, htrue, hconfig, hv⟩ := accepts_of_dropsWord hdrop
    exact hv ((hiff cfg).mp ⟨htrue, hconfig⟩)
  · rintro ⟨htrue, rfl⟩
    obtain ⟨hlast, cfg, hd⟩ := derives_of_parse h htrue
    rw [parse_of_derives h hlast hd]
    have htokens : last.tokens = some [] := by
      cases last with
      | nothing | comment => rfl
      | word w => exact absurd ⟨ts, w, cfg, h, hd⟩ hdrop
      | quote => cases hlast
    exact ⟨ts, last, [], h, htokens, by rwa [List.append_nil]⟩
  · exact parse_of_valid hcfg

end Parse

/-- A word at the end of the text is dropped, and the rest accepted. -/
theorem parse_drops_word :
    ¬ ∀ s cfg, ((parse s).1 = true ∧ (parse s).2.config = cfg) ↔ Valid s cfg := by
  intro h
  have hport : OrdinaryWord (str "port") := .mk rfl (by simp; decide)
  have heighty : OrdinaryWord (str "80") := .mk rfl (by simp; decide)
  have hlocation : OrdinaryWord (str "location") := .mk rfl (by simp; decide)
  have hlex : Lexes (str "port 80; location") [.word (str "port"), .word (str "80"), .semicolon]
      (.word (str "location")) :=
    .ordinary (e := ' ') hport rfl
      (.blank rfl (.ordinary (e := ';') heighty rfl (.semicolon (.blank rfl (.lastWord hlocation)))))
  have hderives : Derives [.word (str "port"), .word (str "80"), .semicolon] _ :=
    @Derives.simple [str "port", str "80"] [] [] (List.cons_ne_nil _ _) .nil
  obtain ⟨cfg, htrue, hconfig, hv⟩ := accepts_of_dropsWord ⟨_, _, _, hlex, hderives⟩
  exact hv ((h _ cfg).mp ⟨htrue, hconfig⟩)

end NginxConfigParser

end LowKeyWebServer
