import LowKeyWebServer.Port
import LowKeyWebServer.ConfigGrammar

/-!
# The header scan, token by token

What `setConfigBlocks` does at each token of the split of its file, comments included. Away
from the word `location` a token is passed (`scanFrom_pass`); after it two tokens are taken for
the prefix and the handler type, whatever they are, and then a block is skipped to its closing
brace (`scanFrom_known`), or to the first semicolon (`scanFrom_static`, `scanFrom_stuck`), or
the third token is passed (`scanFrom_other`).
-/

namespace LowKeyWebServer

open NginxConfigParser

namespace NginxConfigParser

section Lexes

variable {s : Bytes} {t : Token} {ts : List Token} {last : Last}

/-- `getToken` reads the first token of a split. -/
theorem Lexes.getToken_cons (h : Lexes s (t :: ts) last) :
    ∃ rest, getToken s = (t.value, rest) ∧ Lexes rest ts last := by
  rcases h.step with ⟨hts, -⟩ | ⟨t', ts', rest, hts, hp, hrest⟩
  · cases hts
  · obtain ⟨rfl, rfl⟩ := List.cons.inj hts
    exact ⟨rest, congrArg Prod.snd hp, hrest⟩

theorem Lexes.getToken_nil (h : Lexes s [] last) : getToken s = (last.value, []) := by
  rcases h.step with ⟨-, -, hp⟩ | ⟨t', ts', rest, hts, -⟩
  · exact congrArg Prod.snd hp
  · cases hts

theorem Lexes.ne_nil (h : Lexes s (t :: ts) last) : s ≠ [] := by
  rintro rfl
  cases (lexes_unique h .nil).1

/-- A token is punctuation. -/
def Token.Punct (t : Token) : Prop := t = .semicolon ∨ t = .opening ∨ t = .closing

/-- Only a punctuation token has its text. -/
theorem Lexes.value_inj (h : Lexes s ts last) {q : Token} (hq : q.Punct) (ht : t ∈ ts)
    (hv : t.value = q.value) : t = q := by
  cases t with
  | word w =>
    have hw : Word w := h.word w ht
    have hne : ∀ c, startsNormal c = false → isQuote c = false → w.head? ≠ some c :=
      fun c hc hquote => hw.head_ne hc hquote
    obtain rfl | rfl | rfl := hq <;>
      exact absurd (congrArg List.head? hv) (hne _ (by decide) (by decide))
  | comment text => obtain rfl | rfl | rfl := hq <;> exact absurd (List.cons.inj hv).1 (by decide)
  | semicolon | opening | closing =>
    obtain rfl | rfl | rfl := hq <;> first | rfl | exact absurd hv (by decide)

/-- What is left at the end is no punctuation. -/
theorem Lexes.last_value_ne (h : Lexes s ts last) (hlast : last.type = .eof) {q : Token}
    (hq : q.Punct) : last.value ≠ q.value := by
  have hok := h.last_ok
  intro hv
  cases last with
  | nothing => obtain rfl | rfl | rfl := hq <;> cases hv
  | word w =>
    have hne : ∀ c, startsNormal c = false → w.head? ≠ some c := fun c hc => hok.head_ne hc
    obtain rfl | rfl | rfl := hq <;> exact absurd (congrArg List.head? hv) (hne _ (by decide))
  | comment text => obtain rfl | rfl | rfl := hq <;> exact absurd (List.cons.inj hv).1 (by decide)
  | quote text => cases hlast

theorem Lexes.value_ne_nil (h : Lexes s ts last) (ht : t ∈ ts) : t.value ≠ [] := by
  cases t with
  | word w => exact (h.word w ht).ne_nil
  | semicolon | opening | closing | comment => exact List.cons_ne_nil _ _

end Lexes

end NginxConfigParser

namespace Port

/-- Only the word has the keyword's text. -/
theorem value_ne_location {t : Token} (ht : t ≠ .word location) : t.value ≠ location := by
  intro hv
  cases t with
  | word w => exact ht (congrArg Token.word hv)
  | semicolon | opening | closing => exact absurd hv (by decide)
  | comment text => exact absurd (List.cons.inj hv).1 (by decide)

/-! ## Skipping a block -/

section Skip

variable {s token : Bytes} {q : Token} {ts : List Token} {last : Last}

/-- The loop ends behind the first token it looks for. -/
theorem skipTo_split (hq : q.Punct) {a b : List Token} (ha : q ∉ a)
    (h : Lexes s (a ++ q :: b) last) (htoken : token ≠ q.value) :
    ∃ rest, skipTo q.value token s = some rest ∧ Lexes rest b last := by
  induction a generalizing s token with
  | nil =>
    obtain ⟨rest, hget, hrest⟩ := h.getToken_cons
    refine ⟨rest, ?_, hrest⟩
    rw [skipTo_next htoken h.ne_nil, hget, skipTo, if_pos rfl]
  | cons t a ih =>
    rw [List.mem_cons, not_or] at ha
    have hne : t.value ≠ q.value := fun hv => ha.1 (h.value_inj hq List.mem_cons_self hv).symm
    obtain ⟨rest, hget, hrest⟩ := h.getToken_cons
    obtain ⟨rest', hskip, hrest'⟩ := ih ha.2 hrest hne
    refine ⟨rest', ?_, hrest'⟩
    rw [skipTo_next htoken h.ne_nil, hget]
    exact hskip

/-- Without such a token the loop never ends. -/
theorem skipTo_none (hq : q.Punct) (hlast : last.type = .eof) (hts : q ∉ ts) (h : Lexes s ts last)
    (htoken : token ≠ q.value) : skipTo q.value token s = none := by
  induction ts generalizing s token with
  | nil =>
    by_cases hs : s = []
    · rw [hs, skipTo_nil htoken]
    · rw [skipTo_next htoken hs, h.getToken_nil, skipTo_nil (h.last_value_ne hlast hq)]
  | cons t ts ih =>
    rw [List.mem_cons, not_or] at hts
    have hne : t.value ≠ q.value := fun hv => hts.1 (h.value_inj hq List.mem_cons_self hv).symm
    obtain ⟨rest, hget, hrest⟩ := h.getToken_cons
    rw [skipTo_next htoken h.ne_nil, hget]
    exact ih hts.2 hrest hne

end Skip

/-! ## One round of the loop -/

/-- The loop where the next token is not yet read. -/
def scanFrom (lastToken input : Bytes) (blocks : List ConfigBlock) : Option (List ConfigBlock) :=
  scanHeaders lastToken ⟨(getToken input).1, (getToken input).2, blocks⟩

theorem scanHeaders_pass {lastToken : Bytes} (hl : lastToken ≠ location) {s : Scan}
    (hs : s.token ≠ []) : scanHeaders lastToken s = scanFrom s.token s.input s.configBlocks := by
  rw [scanHeaders, dif_neg hs]
  split
  · next h =>
    rw [if_neg hl] at h
    cases h
  · next s' h =>
    rw [if_neg hl] at h
    obtain rfl := Option.some.inj h
    rfl

theorem scanHeaders_header {s : Scan} (hs : s.token ≠ []) :
    scanHeaders location s =
      (readHeader s).bind fun s' => scanFrom s'.token s'.input s'.configBlocks := by
  rw [scanHeaders, dif_neg hs]
  split
  · next h =>
    rw [if_pos rfl] at h
    rw [h]
    rfl
  · next s' h =>
    rw [if_pos rfl] at h
    have hbind : (readHeader s).bind (fun s' => scanFrom s'.token s'.input s'.configBlocks) =
        scanFrom s'.token s'.input s'.configBlocks := by
      rw [h, Option.bind_some]
    exact hbind.symm

section Round

variable {s lastToken : Bytes} {t u v : Token} {ts a b : List Token} {last : Last}

/-- The end of the file, away from the keyword. -/
theorem scanFrom_nil (h : Lexes s [] last) (hl : lastToken ≠ location) (blocks : List ConfigBlock) :
    scanFrom lastToken s blocks = some blocks := by
  have hend : ∀ l, scanHeaders l ⟨[], [], blocks⟩ = some blocks := fun l => by
    rw [scanHeaders, dif_pos rfl]
  rw [scanFrom, h.getToken_nil]
  by_cases hv : last.value = []
  · rw [hv, hend]
  · rw [scanHeaders_pass hl hv]
    exact hend _

/-- A token is passed. -/
theorem scanFrom_pass (h : Lexes s (t :: ts) last) (hl : lastToken ≠ location) :
    ∃ rest, Lexes rest ts last ∧
      ∀ blocks, scanFrom lastToken s blocks = scanFrom t.value rest blocks := by
  obtain ⟨rest, hget, hrest⟩ := h.getToken_cons
  refine ⟨rest, hrest, fun blocks => ?_⟩
  rw [scanFrom, hget]
  exact scanHeaders_pass hl (h.value_ne_nil List.mem_cons_self)

/-- Tokens without the keyword are passed. -/
theorem scanFrom_append (ha : Token.word location ∉ a) (h : Lexes s (a ++ b) last)
    (hl : lastToken ≠ location) :
    ∃ rest lastToken', Lexes rest b last ∧ lastToken' ≠ location ∧
      ∀ blocks, scanFrom lastToken s blocks = scanFrom lastToken' rest blocks := by
  induction a generalizing s lastToken with
  | nil => exact ⟨s, lastToken, h, hl, fun _ => rfl⟩
  | cons t a ih =>
    rw [List.mem_cons, not_or] at ha
    obtain ⟨rest, hrest, hpass⟩ := scanFrom_pass h hl
    obtain ⟨rest', lastToken', hrest', hl', heq⟩ := ih ha.2 hrest (value_ne_location (Ne.symm ha.1))
    exact ⟨rest', lastToken', hrest', hl', fun blocks => (hpass blocks).trans (heq blocks)⟩

/-- The prefix and the handler type are the two tokens after the keyword. -/
theorem scanFrom_header (h : Lexes s (t :: u :: ts) last) :
    ∃ rest, Lexes rest ts last ∧ ∀ blocks, scanFrom location s blocks =
      ((readKnown ⟨t.value, u.value, []⟩ ⟨u.value, rest, blocks⟩).bind
        (readStatic ⟨t.value, u.value, []⟩)).bind
          fun s' => scanFrom s'.token s'.input s'.configBlocks := by
  obtain ⟨rest, hget, hrest⟩ := h.getToken_cons
  obtain ⟨rest', hget', hrest'⟩ := hrest.getToken_cons
  refine ⟨rest', hrest', fun blocks => ?_⟩
  rw [scanFrom, hget, scanHeaders_header (h.value_ne_nil List.mem_cons_self), readHeader, hget']

/-- A known handler's block is skipped to its closing brace. -/
theorem scanFrom_known (h : Lexes s (t :: u :: (a ++ .closing :: b)) last)
    (hu : skipsBlock u.value = true) (ha : Token.closing ∉ a) :
    ∃ rest, Lexes rest b last ∧ ∀ blocks, scanFrom location s blocks =
      scanFrom (str "\x7d") rest (blocks ++ [⟨t.value, u.value, []⟩]) := by
  obtain ⟨rest, hrest, heq⟩ := scanFrom_header h
  have hne : u.value ≠ Token.closing.value := by
    intro hv
    rw [hv] at hu
    cases hu
  obtain ⟨rest', hskip, hrest'⟩ := skipTo_split (Or.inr (Or.inr rfl)) ha hrest hne
  refine ⟨rest', hrest', fun blocks => ?_⟩
  rw [Token.value] at hskip
  have hclosed : str "\x7d" ≠ str "\x7b" := by decide
  rw [heq, readKnown, if_pos hu, hskip, Option.map_some, Option.bind_some, readStatic]
  dsimp only
  rw [if_neg hclosed, Option.bind_some]

/-- After an unknown handler type one more token is read. -/
theorem scanFrom_unknown (h : Lexes s (t :: u :: v :: ts) last) (hu : skipsBlock u.value = false) :
    ∃ rest, Lexes rest ts last ∧ ∀ blocks, scanFrom location s blocks =
      (readStatic ⟨t.value, u.value, []⟩ ⟨v.value, rest, blocks⟩).bind
        fun s' => scanFrom s'.token s'.input s'.configBlocks := by
  obtain ⟨rest, hrest, heq⟩ := scanFrom_header h
  obtain ⟨rest', hget, hrest'⟩ := hrest.getToken_cons
  refine ⟨rest', hrest', fun blocks => ?_⟩
  have hno : ¬ skipsBlock u.value = true := by rw [hu]; exact Bool.false_ne_true
  rw [heq, readKnown, if_neg hno, Option.bind_some, hget]

theorem readStatic_opening (block : ConfigBlock) (input : Bytes) (blocks : List ConfigBlock) :
    readStatic block ⟨Token.opening.value, input, blocks⟩ =
      (skipTo (str ";") (getToken input).1 (getToken input).2).map fun input =>
        ⟨str ";", input, blocks ++ [block]⟩ :=
  if_pos rfl

/-- A static handler's block is skipped to the first semicolon. -/
theorem scanFrom_static (h : Lexes s (t :: u :: .opening :: (a ++ .semicolon :: b)) last)
    (hu : skipsBlock u.value = false) (ha : Token.semicolon ∉ a) :
    ∃ rest, Lexes rest b last ∧ ∀ blocks, scanFrom location s blocks =
      scanFrom (str ";") rest (blocks ++ [⟨t.value, u.value, []⟩]) := by
  obtain ⟨rest, hrest, heq⟩ := scanFrom_unknown h hu
  -- the loop starts at the token after the brace, so that one token is read before it
  have hloop : ∃ rest', skipTo (str ";") (getToken rest).1 (getToken rest).2 = some rest' ∧
      Lexes rest' b last := by
    have hopen : Token.opening.value ≠ Token.semicolon.value := by decide
    obtain ⟨rest', hskip, hrest'⟩ := skipTo_split (Or.inl rfl) ha hrest hopen
    have hne : rest ≠ [] := by
      rintro rfl
      obtain hnil := (lexes_unique hrest .nil).1
      exact absurd hnil (by simp)
    rw [skipTo_next hopen hne] at hskip
    exact ⟨rest', hskip, hrest'⟩
  obtain ⟨rest', hskip, hrest'⟩ := hloop
  refine ⟨rest', hrest', fun blocks => ?_⟩
  rw [heq, readStatic_opening, hskip, Option.map_some, Option.bind_some]

/-- Without a semicolon the scan never ends. -/
theorem scanFrom_stuck (h : Lexes s (t :: u :: .opening :: ts) last) (hlast : last.type = .eof)
    (hu : skipsBlock u.value = false) (hts : Token.semicolon ∉ ts) (blocks : List ConfigBlock) :
    scanFrom location s blocks = none := by
  obtain ⟨rest, hrest, heq⟩ := scanFrom_unknown h hu
  have hskip : skipTo (str ";") (getToken rest).1 (getToken rest).2 = none := by
    rcases ts with - | ⟨v, ts⟩
    · rw [hrest.getToken_nil]
      exact skipTo_nil (hrest.last_value_ne hlast (Or.inl rfl))
    · rw [List.mem_cons, not_or] at hts
      obtain ⟨rest', hget, hrest'⟩ := hrest.getToken_cons
      have hne : v.value ≠ Token.semicolon.value := fun hv =>
        hts.1 (hrest.value_inj (Or.inl rfl) List.mem_cons_self hv).symm
      rw [hget]
      exact skipTo_none (Or.inl rfl) hlast hts.2 hrest' hne
  rw [heq, readStatic_opening, hskip]
  rfl

/-- No header is read without an opening brace after the handler type. -/
theorem scanFrom_other (h : Lexes s (t :: u :: v :: ts) last) (hu : skipsBlock u.value = false)
    (hv : v ≠ .opening) :
    ∃ rest, Lexes rest ts last ∧
      ∀ blocks, scanFrom location s blocks = scanFrom v.value rest blocks := by
  obtain ⟨rest, hrest, heq⟩ := scanFrom_unknown h hu
  have hmem : v ∈ t :: u :: v :: ts := by simp
  have hne : ¬ v.value = str "\x7b" := fun hval => hv (h.value_inj (Or.inr (Or.inl rfl)) hmem hval)
  refine ⟨rest, hrest, fun blocks => ?_⟩
  rw [heq, readStatic, if_neg hne, Option.bind_some]

end Round

end Port

end LowKeyWebServer
