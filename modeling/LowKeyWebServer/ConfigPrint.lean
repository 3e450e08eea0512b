import LowKeyWebServer.ConfigParserCorrect

/-!
# Printing a config

`ToString` and `Parse` are inverse on the trees that can be printed: each statement has a
token, and each token is one that `ParseToken` can return as a normal one (`Printable`). The
tokenizer splits a printed tree exactly at the tokens of its derivation (`lexes_configToStr`),
by induction on the tree; what `Parse` makes of them is `parse_of_derives`.
-/

namespace LowKeyWebServer

namespace NginxConfigParser

/-- A text that `ParseToken` can return as a `TOKEN_TYPE_NORMAL`. -/
def NormalToken (w : Bytes) : Prop := ∃ s rest, parseToken s = (.normal, w, rest)

/-- These are the ordinary words and the strings. -/
theorem normalToken_iff {w : Bytes} : NormalToken w ↔ Word w := by
  constructor
  · rintro ⟨s, rest, hp⟩
    obtain ⟨ts, last, h⟩ := exists_lexes s
    rcases h.step with ⟨-, -, hs⟩ | ⟨t, ts', rest', rfl, hs, -⟩
    · exact absurd (Prod.mk.inj (hp.symm.trans hs)).1 ((Token.word w).type_ne last)
    · obtain ⟨htype, hpair⟩ := Prod.mk.inj (hp.symm.trans hs)
      have hword : Token.word w = t := Token.eq_of_type_value htype (Prod.mk.inj hpair).1
      exact h.word w (hword ▸ List.mem_cons_self)
  · rintro (ho | hq)
    · exact ⟨_, _, parseToken_ordinary ho (e := ';') (by decide) []⟩
    · exact ⟨_, _, parseToken_quoted hq []⟩

/-- A tree that can be printed: each statement has at least one token, and all are normal. -/
inductive Printable : NginxConfig → Prop where
  | nil : Printable []
  | simple {words : List Bytes} {cfg : NginxConfig} : words ≠ [] → (∀ w ∈ words, NormalToken w) →
      Printable cfg → Printable (.mk words none :: cfg)
  | block {words : List Bytes} {child cfg : NginxConfig} : words ≠ [] →
      (∀ w ∈ words, NormalToken w) → Printable child → Printable cfg →
      Printable (.mk words (some child) :: cfg)

/-! ## The tokens of a tree -/

mutual

/-- The tokens of a statement. -/
def statementTokens : NginxConfigStatement → List Token
  | .mk words none => words.map Token.word ++ [.semicolon]
  | .mk words (some block) => words.map Token.word ++ .opening :: (configTokens block ++ [.closing])

/-- The tokens of a config. -/
def configTokens : List NginxConfigStatement → List Token
  | [] => []
  | s :: cfg => statementTokens s ++ configTokens cfg

end

/-- The tokens of a printable tree derive it. -/
theorem Printable.derives {cfg : NginxConfig} (h : Printable cfg) : Derives (configTokens cfg) cfg := by
  induction h with
  | nil => exact .nil
  | simple hne _ _ ih =>
    rw [configTokens, statementTokens, List.append_assoc, List.singleton_append]
    exact .simple hne ih
  | block hne _ _ _ ihc ih =>
    rw [configTokens, statementTokens, List.append_assoc, List.cons_append, List.append_assoc,
      List.singleton_append]
    exact .block hne ihc ih

/-- No token of a tree is a comment. -/
theorem Derives.significant {ts : List Token} {cfg : NginxConfig} (h : Derives ts cfg) :
    ts.filter Token.significant = ts := by
  have hwords : ∀ words : List Bytes,
      (words.map Token.word).filter Token.significant = words.map Token.word := by
    intro words
    apply List.filter_eq_self.mpr
    intro t ht
    obtain ⟨w, -, rfl⟩ := List.mem_map.mp ht
    rfl
  induction h with
  | nil => rfl
  | simple _ _ ih =>
    rw [List.filter_append, hwords, List.filter_cons_of_pos rfl, ih]
  | block _ _ _ ihi ih =>
    rw [List.filter_append, hwords, List.filter_cons_of_pos rfl, List.filter_append, ihi,
      List.filter_cons_of_pos rfl, ih]

/-- The tree of a derivation from words can be printed. -/
theorem Derives.printable {ts : List Token} {cfg : NginxConfig} (h : Derives ts cfg)
    (hw : ∀ w, Token.word w ∈ ts → Word w) : Printable cfg := by
  induction h with
  | nil => exact .nil
  | simple hne _ ih =>
    refine .simple hne (fun w hmem => ?_) (ih fun w hmem => ?_)
    · exact normalToken_iff.mpr (hw w (List.mem_append_left _ (List.mem_map_of_mem hmem)))
    · exact hw w (List.mem_append_right _ (List.mem_cons_of_mem _ hmem))
  | block hne _ _ ihc ih =>
    refine .block hne (fun w hmem => ?_) (ihc fun w hmem => ?_) (ih fun w hmem => ?_)
    · exact normalToken_iff.mpr (hw w (List.mem_append_left _ (List.mem_map_of_mem hmem)))
    · exact hw w (List.mem_append_right _ (List.mem_cons_of_mem _ (List.mem_append_left _ hmem)))
    · exact hw w (List.mem_append_right _ (List.mem_cons_of_mem _
        (List.mem_append_right _ (List.mem_cons_of_mem _ hmem))))

/-! ## The split of a printed tree -/

section Split

variable {s : Bytes} {ts : List Token} {last : Last}

theorem Lexes.indent (h : Lexes s ts last) (depth : Nat) : Lexes (indent depth ++ s) ts last := by
  induction depth with
  | zero => exact h
  | succ depth ih =>
    rw [LowKeyWebServer.indent, List.replicate_succ, List.flatten_cons, List.append_assoc]
    exact .blank rfl (.blank rfl ih)

/-- A word is split off before a character that ends words. -/
theorem Lexes.word_before {w : Bytes} {e : Byte} (hw : Word w) (he : endsNormal e = true)
    (h : Lexes (e :: s) ts last) : Lexes (w ++ e :: s) (.word w :: ts) last := by
  rcases hw with ho | hq
  · exact .ordinary ho he h
  · exact .quoted hq h

/-- The words of a statement are split at the blanks between them. -/
theorem Lexes.joinTokens {words : List Bytes} (hne : words ≠ []) (hw : ∀ w ∈ words, NormalToken w)
    {e : Byte} (he : endsNormal e = true) (h : Lexes (e :: s) ts last) :
    Lexes (joinTokens words ++ e :: s) (words.map Token.word ++ ts) last := by
  induction words with
  | nil => exact absurd rfl hne
  | cons w words ih =>
    rw [List.forall_mem_cons] at hw
    have hword : Word w := normalToken_iff.mp hw.1
    rcases words with - | ⟨w', words⟩
    · exact h.word_before hword he
    · have hmore := ih (List.cons_ne_nil _ _) hw.2
      have hblank : endsNormal ' ' = true := by decide
      rw [LowKeyWebServer.joinTokens, List.append_assoc, List.append_assoc]
      · exact Lexes.word_before hword hblank (.blank rfl hmore)
      · exact List.cons_ne_nil _ _

/-- A printed tree is split into the tokens of the tree, at any depth. -/
theorem lexes_configToStr {cfg : NginxConfig} (hp : Printable cfg) (depth : Nat)
    (h : Lexes s ts last) : Lexes (configToStr depth cfg ++ s) (configTokens cfg ++ ts) last := by
  induction hp generalizing depth s ts with
  | nil => exact h
  | @simple words cfg hne hw _ ih =>
    have hsemicolon := (Lexes.blank (c := '\n') rfl (ih depth h)).semicolon
    have hwords := (hsemicolon.joinTokens hne hw (by decide)).indent depth
    rw [configToStr, NginxConfigStatement.toStr, configTokens, statementTokens]
    simpa [str] using hwords
  | @block words child cfg hne hw _ _ ihc ih =>
    have hclosing := ((Lexes.blank (c := '\n') rfl (ih depth h)).closing).indent depth
    have hchild := Lexes.blank (c := '\n') rfl (ihc (depth + 1) hclosing)
    -- the blank before the brace ends the last word
    have hopening := Lexes.blank (c := ' ') rfl hchild.opening
    have hwords := (hopening.joinTokens hne hw (by decide)).indent depth
    rw [configToStr, NginxConfigStatement.toStr, configTokens, statementTokens]
    simpa [str] using hwords

end Split

theorem Printable.lexes {cfg : NginxConfig} (hp : Printable cfg) :
    Lexes (configToStr 0 cfg) (configTokens cfg) .nothing := by
  have hlex := lexes_configToStr hp 0 .nil
  rwa [List.append_nil, List.append_nil] at hlex

/-- A printed tree is parsed to that tree. -/
theorem parse_configToStr {cfg : NginxConfig} (hp : Printable cfg) :
    (parse (configToStr 0 cfg)).1 = true ∧ (parse (configToStr 0 cfg)).2.config = cfg := by
  have hd : Derives ((configTokens cfg).filter Token.significant) cfg := by
    rw [hp.derives.significant]
    exact hp.derives
  rw [parse_of_derives hp.lexes rfl hd]
  exact ⟨rfl, rfl⟩

/-- The tree that `Parse` builds where it returns true can be printed. -/
theorem printable_of_parse {s : Bytes} (htrue : (parse s).1 = true) :
    Printable (parse s).2.config := by
  obtain ⟨ts, last, h⟩ := exists_lexes s
  obtain ⟨hlast, cfg, hd⟩ := derives_of_parse h htrue
  rw [parse_of_derives h hlast hd]
  exact hd.printable h.significant_word

/-- **`ToString` and `Parse` are inverse**: a printable tree is printed and parsed to itself,
and every accepted text is parsed to a printable tree, whose print is parsed to it again. -/
theorem parse_toString :
    (∀ cfg, Printable cfg →
      (parse (configToStr 0 cfg)).1 = true ∧ (parse (configToStr 0 cfg)).2.config = cfg) ∧
    ∀ s, (parse s).1 = true → Printable (parse s).2.config ∧
      (parse (configToStr 0 (parse s).2.config)).1 = true ∧
      (parse (configToStr 0 (parse s).2.config)).2.config = (parse s).2.config :=
  ⟨fun _ hp => parse_configToStr hp, fun _ htrue =>
    ⟨printable_of_parse htrue, parse_configToStr (printable_of_parse htrue)⟩⟩

/-- An empty child block and a nested one, with a string that holds a blank. -/
theorem parse_toString_nested :
    let cfg : NginxConfig := [.mk [str "a"] (some []), .mk [str "\"x y\"", str "b"] (some
      [.mk [str "c"] none])]
    (parse (configToStr 0 cfg)).1 = true ∧ (parse (configToStr 0 cfg)).2.config = cfg := by
  have ha : NormalToken (str "a") := ⟨str "a;", _, rfl⟩
  have hb : NormalToken (str "b") := ⟨str "b;", _, rfl⟩
  have hc : NormalToken (str "c") := ⟨str "c;", _, rfl⟩
  have hx : NormalToken (str "\"x y\"") := ⟨str "\"x y\";", _, rfl⟩
  apply parse_toString.1
  refine .block (by simp) ?_ .nil (.block (by simp) ?_ (.simple (by simp) ?_ .nil) .nil)
  · simpa using ha
  · simpa using ⟨hx, hb⟩
  · simpa using hc

end NginxConfigParser

end LowKeyWebServer
