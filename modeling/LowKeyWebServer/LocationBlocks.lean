import LowKeyWebServer.PortScan
import LowKeyWebServer.ConfigPrint

/-!
# Which block a location gets

What `setConfigBlocks` is for: a config block for each location statement, in the order of the
text, with that statement's own block (`configLocations`, `Keeps`). The contents come from the
parser in the order in which blocks are closed, and the headers from a scan that takes comments
for tokens and reads past the end of a block, so that this needs a text in the form of
`Orderly`.

* `flat_of_contents`: contents in closing order are those in document order only if no block
  lies in another one;
* `Orderly.scan`, `orderly_of_keeps`: the scan reads every header exactly on an orderly text;
* `setConfigBlocks_keeps`: the two together.
-/

namespace LowKeyWebServer

open NginxConfigParser

/-- What the scan collects of a config block. -/
def ConfigBlock.header (b : ConfigBlock) : Bytes × Bytes := (b.blockPrefix, b.handlerType)

namespace Port

/-! ## Statements at any depth -/

/-- Induction on a config: on its statements, and on the block of the first one. -/
theorem config_induction {P : NginxConfig → Prop} (nil : P [])
    (simple : ∀ words cfg, P cfg → P (.mk words none :: cfg))
    (block : ∀ words child cfg, P child → P cfg → P (.mk words (some child) :: cfg)) :
    ∀ cfg, P cfg
  | [] => nil
  | .mk words none :: cfg => simple words cfg (config_induction nil simple block cfg)
  | .mk words (some child) :: cfg =>
    block words child cfg (config_induction nil simple block child)
      (config_induction nil simple block cfg)

/-- All statements of a config, at any depth, satisfy `P`. -/
inductive AllStatements (P : NginxConfigStatement → Prop) : NginxConfig → Prop where
  | nil : AllStatements P []
  | simple {words : List Bytes} {cfg : NginxConfig} : P (.mk words none) → AllStatements P cfg →
      AllStatements P (.mk words none :: cfg)
  | block {words : List Bytes} {child cfg : NginxConfig} : P (.mk words (some child)) →
      AllStatements P child → AllStatements P cfg → AllStatements P (.mk words (some child) :: cfg)

/-- Every location statement has the form `location PREFIX HANDLER { ... }`. -/
def LocationForm : NginxConfig → Prop :=
  AllStatements fun s => s.tokens.head? = some location →
    s.tokens.length = 3 ∧ ∃ child, s.childBlock = some child

/-- The word `location` is nothing but the keyword of a statement. -/
def KeywordOnly : NginxConfig → Prop := AllStatements fun s => location ∉ s.tokens.tail

mutual

/-- The config blocks of a statement: its own one if it is a location statement, then those
of the statements in its block. -/
def statementLocations : NginxConfigStatement → List ConfigBlock
  | .mk _ none => []
  | .mk words (some block) =>
    (if words.head? = some location then [⟨words.getD 1 [], words.getD 2 [], block⟩] else []) ++
      configLocations block

/-- One config block for each location statement, in the order of the text. -/
def configLocations : List NginxConfigStatement → List ConfigBlock
  | [] => []
  | s :: cfg => statementLocations s ++ configLocations cfg

end

/-- The port has exactly the config blocks of its file's location statements. -/
def Keeps (file : Bytes) : Prop :=
  setConfigBlocks file = some (configLocations (parse file).2.config)

/-! ## The contents -/

/-- Where the contents are right, the result is if the headers are. -/
theorem assignContents_iff (headers blocks : List ConfigBlock) :
    assignContents headers (blocks.map ConfigBlock.content) = some blocks ↔
      headers.map ConfigBlock.header = blocks.map ConfigBlock.header := by
  induction blocks generalizing headers with
  | nil =>
    rw [List.map_nil, assignContents, List.map_nil, List.map_eq_nil_iff]
    exact Option.some_inj
  | cons b blocks ih =>
    rcases headers with - | ⟨a, headers⟩
    · rw [List.map_cons, assignContents]
      simp
    · rw [List.map_cons, assignContents, Option.map_eq_some_iff, List.map_cons, List.map_cons,
        List.cons.injEq, ← ih headers]
      constructor
      · rintro ⟨rest, hrest, heq⟩
        obtain ⟨hb, rfl⟩ := List.cons.inj heq
        refine ⟨?_, hrest⟩
        rw [← hb]
        rfl
      · rintro ⟨hheader, hrest⟩
        obtain ⟨hloc, htype⟩ := Prod.mk.inj hheader
        refine ⟨blocks, hrest, ?_⟩
        obtain ⟨p, h, c⟩ := a
        obtain ⟨p', h', c'⟩ := b
        obtain rfl : p = p' := hloc
        obtain rfl : h = h' := htype
        rfl

/-- The contents are put in from the front, each into a block of its own. -/
theorem contents_prefix {headers blocks : List ConfigBlock} {contents : List NginxConfig}
    (h : assignContents headers contents = some blocks) :
    contents <+: blocks.map ConfigBlock.content := by
  induction contents generalizing headers blocks with
  | nil => exact List.nil_prefix
  | cons c contents ih =>
    rcases headers with - | ⟨a, headers⟩
    · cases h
    · rw [assignContents] at h
      obtain ⟨rest, hrest, rfl⟩ := Option.map_eq_some_iff.mp h
      rw [List.map_cons]
      exact List.prefix_cons_inj _ |>.mpr (ih hrest)

/-! ## The shape of a config whose contents are in order -/

/-- A location statement has at most one config block. -/
theorem length_own_le (words : List Bytes) (child : NginxConfig) :
    (if words.head? = some location then [(⟨words.getD 1 [], words.getD 2 [], child⟩ : ConfigBlock)]
      else []).length ≤ 1 := by
  split <;> simp

theorem length_configLocations_le (cfg : NginxConfig) :
    (configLocations cfg).length ≤ (configClosedBlocks cfg).length := by
  induction cfg using config_induction with
  | nil => exact Nat.le_refl _
  | simple words cfg ih =>
    simpa [configLocations, statementLocations, configClosedBlocks, statementClosedBlocks] using ih
  | block words child cfg ihc ih =>
    have hown := length_own_le words child
    simp only [configLocations, statementLocations, configClosedBlocks, statementClosedBlocks,
      List.length_append, List.length_singleton]
    omega

/-- A block holds more blocks than each block in it. -/
theorem length_closed_lt {cfg b : NginxConfig} (hb : b ∈ configClosedBlocks cfg) :
    (configClosedBlocks b).length < (configClosedBlocks cfg).length := by
  induction cfg using config_induction with
  | nil => cases hb
  | simple words cfg ih =>
    rw [configClosedBlocks, statementClosedBlocks, List.nil_append] at hb ⊢
    exact ih hb
  | block words child cfg ihc ih =>
    rw [configClosedBlocks, statementClosedBlocks, List.mem_append, List.mem_append,
      List.mem_singleton] at hb
    simp only [configClosedBlocks, statementClosedBlocks, List.length_append,
      List.length_singleton]
    rcases hb with (hb | rfl) | hb
    · have hlt := ihc hb
      omega
    · omega
    · have hlt := ih hb
      omega

/-- A config of simple statements. -/
def Simple (cfg : NginxConfig) : Prop := ∀ s ∈ cfg, s.childBlock = none

/-- Every block is the block of a top-level location statement. -/
inductive Flat : NginxConfig → Prop where
  | nil : Flat []
  | simple {words : List Bytes} {cfg : NginxConfig} : Flat cfg → Flat (.mk words none :: cfg)
  | block {p h : Bytes} {child cfg : NginxConfig} : Simple child → Flat cfg →
      Flat (.mk [location, p, h] (some child) :: cfg)

theorem simple_of_closed {cfg : NginxConfig} (h : configClosedBlocks cfg = []) : Simple cfg := by
  induction cfg using config_induction with
  | nil => exact fun _ hs => absurd hs List.not_mem_nil
  | simple words cfg ih =>
    rw [configClosedBlocks, statementClosedBlocks, List.nil_append] at h
    exact List.forall_mem_cons.mpr ⟨rfl, ih h⟩
  | block words child cfg _ _ =>
    rw [configClosedBlocks, statementClosedBlocks, List.append_eq_nil_iff] at h
    exact absurd h.1 (by simp)

theorem Simple.closed {cfg : NginxConfig} (h : Simple cfg) : configClosedBlocks cfg = [] := by
  induction cfg using config_induction with
  | nil => rfl
  | simple words cfg ih =>
    rw [configClosedBlocks, statementClosedBlocks, List.nil_append]
    exact ih fun s hs => h s (List.mem_cons_of_mem _ hs)
  | block words child cfg _ _ => cases h _ List.mem_cons_self

theorem Simple.locations {cfg : NginxConfig} (h : Simple cfg) : configLocations cfg = [] := by
  have hle := length_configLocations_le cfg
  rw [h.closed] at hle
  exact List.eq_nil_of_length_eq_zero (Nat.le_zero.mp hle)

theorem locations_block {p h : Bytes} {child : NginxConfig} (hc : Simple child) (cfg : NginxConfig) :
    configLocations (.mk [location, p, h] (some child) :: cfg) =
      ⟨p, h, child⟩ :: configLocations cfg := by
  have hword : [location, p, h].head? = some location := rfl
  rw [configLocations, statementLocations, if_pos hword, hc.locations]
  rfl

/-- The contents of a flat config are in order. -/
theorem Flat.contents {cfg : NginxConfig} (h : Flat cfg) :
    (configLocations cfg).map ConfigBlock.content = configClosedBlocks cfg := by
  induction h with
  | nil => rfl
  | simple _ ih =>
    rw [configLocations, statementLocations, configClosedBlocks, statementClosedBlocks]
    exact ih
  | block hc _ ih =>
    rw [locations_block hc, List.map_cons, ih, configClosedBlocks, statementClosedBlocks, hc.closed]
    rfl

/-- **Contents in closing order are in document order only where no block lies in another
one**: the first block that is closed would hold itself. -/
theorem flat_of_contents {cfg : NginxConfig} (hform : LocationForm cfg)
    (h : (configLocations cfg).map ConfigBlock.content = configClosedBlocks cfg) : Flat cfg := by
  induction hform with
  | nil => exact .nil
  | simple _ _ ih =>
    rw [configLocations, statementLocations, configClosedBlocks, statementClosedBlocks] at h
    exact .simple (ih h)
  | @block words child cfg hs _ _ _ ih =>
    have hlen := congrArg List.length h
    have hown := length_own_le words child
    have hchild := length_configLocations_le child
    have hcfg := length_configLocations_le cfg
    rw [configLocations, statementLocations, configClosedBlocks, statementClosedBlocks] at h hlen
    simp only [List.length_map, List.length_append, List.length_singleton] at hlen
    have hword : words.head? = some location := by
      by_contra hno
      rw [if_neg hno] at hlen hown
      rw [List.length_nil] at hlen
      omega
    rw [if_pos hword] at h hlen
    rw [List.length_singleton] at hlen
    rw [List.map_append] at h
    obtain ⟨hfirst, hrest⟩ := List.append_inj h (by simp; omega)
    have hempty : configClosedBlocks child = [] := by
      rcases hclosed : configClosedBlocks child with - | ⟨b, blocks⟩
      · rfl
      · rw [hclosed, List.map_append, List.map_singleton, List.singleton_append, List.cons_append] at hfirst
        obtain rfl : child = b := (List.cons.inj hfirst).1
        have hmem : child ∈ configClosedBlocks child := by rw [hclosed]; exact List.mem_cons_self
        exact absurd (length_closed_lt hmem) (Nat.lt_irrefl _)
    obtain ⟨hthree, -⟩ := hs hword
    obtain ⟨a, p, h, rfl⟩ := List.length_eq_three.mp hthree
    obtain rfl : a = location := Option.some.inj hword
    exact .block (simple_of_closed hempty) (ih hrest)

/-! ## Orderly texts -/

/-- The tokens, with their comments, of a flat config that the scan reads as it is meant: no
comment inside a header; behind the header of a static handler, up to the first semicolon, a
statement of its own block, or, if that is empty, a simple statement that follows; and the
word `location`, where it is no keyword, only in what is skipped or in a header. -/
inductive Orderly : List Token → NginxConfig → Prop where
  | nil : Orderly [] []
  | comment {text : Bytes} {ts : List Token} {cfg : NginxConfig} : Orderly ts cfg →
      Orderly (.comment text :: ts) cfg
  | simple {body ts : List Token} {words : List Bytes} {cfg : NginxConfig} :
      body.filter Token.significant = words.map Token.word → words ≠ [] → location ∉ words →
      Orderly ts cfg → Orderly (body ++ .semicolon :: ts) (.mk words none :: cfg)
  | known {p h : Bytes} {gap body ts : List Token} {child cfg : NginxConfig} :
      skipsBlock h = true → gap.filter Token.significant = [] →
      Derives (body.filter Token.significant) child → Simple child → Orderly ts cfg →
      Orderly (.word location :: .word p :: .word h :: (gap ++ .opening :: (body ++ .closing :: ts)))
        (.mk [location, p, h] (some child) :: cfg)
  | static {p h : Bytes} {first rest ts : List Token} {child cfg : NginxConfig} :
      skipsBlock h = false → Token.semicolon ∉ first → Token.word location ∉ rest →
      Derives ((first ++ .semicolon :: rest).filter Token.significant) child → Simple child →
      Orderly ts cfg →
      Orderly (.word location :: .word p :: .word h :: .opening ::
          (first ++ .semicolon :: (rest ++ .closing :: ts)))
        (.mk [location, p, h] (some child) :: cfg)
  | empty {p h : Bytes} {gap next ts : List Token} {words : List Bytes} {cfg : NginxConfig} :
      skipsBlock h = false → gap.filter Token.significant = [] →
      next.filter Token.significant = words.map Token.word → words ≠ [] → Orderly ts cfg →
      Orderly (.word location :: .word p :: .word h :: .opening ::
          (gap ++ .closing :: (next ++ .semicolon :: ts)))
        (.mk [location, p, h] (some []) :: .mk words none :: cfg)

/-- The text of a file is orderly. -/
def OrderlyText (file : Bytes) : Prop :=
  ∃ ts last cfg, Lexes file ts last ∧ Orderly ts cfg

/-- An orderly config is derived, comments aside. -/
theorem Orderly.derives {ts : List Token} {cfg : NginxConfig} (h : Orderly ts cfg) :
    Derives (ts.filter Token.significant) cfg := by
  have hhead : ∀ (p h : Bytes) (ts : List Token),
      (Token.word location :: .word p :: .word h :: ts).filter Token.significant =
        [location, p, h].map Token.word ++ ts.filter Token.significant := fun _ _ _ => rfl
  induction h with
  | nil => exact .nil
  | comment _ ih => exact ih
  | simple hbody hne _ _ ih =>
    rw [List.filter_append, hbody]
    exact .simple hne ih
  | known _ hgap hd _ _ ih =>
    rw [hhead, List.filter_append, hgap, List.nil_append, List.filter_cons_of_pos rfl,
      List.filter_append, List.filter_cons_of_pos rfl]
    exact .block (List.cons_ne_nil _ _) hd ih
  | @static p h first rest ts child cfg _ _ _ hd _ _ ih =>
    have hassoc : first ++ Token.semicolon :: (rest ++ .closing :: ts) =
        (first ++ .semicolon :: rest) ++ .closing :: ts := by simp
    rw [hhead, List.filter_cons_of_pos rfl, hassoc, List.filter_append,
      List.filter_cons_of_pos rfl]
    exact .block (List.cons_ne_nil _ _) hd ih
  | empty _ hgap hnext hne _ ih =>
    rw [hhead, List.filter_cons_of_pos rfl, List.filter_append, hgap, List.nil_append,
      List.filter_cons_of_pos rfl, List.filter_append, hnext, List.filter_cons_of_pos rfl]
    exact @Derives.block _ [] _ [] _ (List.cons_ne_nil _ _) .nil (.simple hne ih)

theorem Orderly.flat {ts : List Token} {cfg : NginxConfig} (h : Orderly ts cfg) : Flat cfg := by
  induction h with
  | nil => exact .nil
  | comment _ ih => exact ih
  | simple _ _ _ _ ih => exact .simple ih
  | known _ _ _ hc _ ih => exact .block hc ih
  | static _ _ _ _ hc _ ih => exact .block hc ih
  | empty _ _ _ _ _ ih => exact .block (fun _ hs => absurd hs List.not_mem_nil) (.simple ih)

/-- A significant token is one of the others. -/
theorem mem_filter_significant {t : Token} (ht : t.significant = true) {ts : List Token} :
    t ∈ ts ↔ t ∈ ts.filter Token.significant := by
  rw [List.mem_filter]
  exact ⟨fun h => ⟨h, ht⟩, And.left⟩

/-- The tokens of simple statements are words and semicolons. -/
theorem Derives.simple_tokens {ts : List Token} {cfg : NginxConfig} (h : Derives ts cfg)
    (hs : Simple cfg) : ∀ t ∈ ts, t = .semicolon ∨ ∃ w, t = .word w ∧ ∃ s ∈ cfg, w ∈ s.tokens := by
  induction h with
  | nil => exact fun _ ht => absurd ht List.not_mem_nil
  | @simple words ts cfg _ _ ih =>
    intro t ht
    rcases List.mem_append.mp ht with ht | ht
    · obtain ⟨w, hw, rfl⟩ := List.mem_map.mp ht
      exact Or.inr ⟨w, rfl, _, List.mem_cons_self, hw⟩
    · rcases List.mem_cons.mp ht with rfl | ht
      · exact Or.inl rfl
      · rcases ih (fun s hs' => hs s (List.mem_cons_of_mem _ hs')) t ht with h | ⟨w, rfl, s, hs', hw⟩
        · exact Or.inl h
        · exact Or.inr ⟨w, rfl, s, List.mem_cons_of_mem _ hs', hw⟩
  | block => cases hs _ List.mem_cons_self

/-- A block of simple statements has no brace of its own. -/
theorem no_brace {body : List Token} {child : NginxConfig}
    (hd : Derives (body.filter Token.significant) child) (hc : Simple child) :
    Token.opening ∉ body ∧ Token.closing ∉ body := by
  have hno : ∀ t, t.significant = true → t ≠ .semicolon → (∀ w, t ≠ .word w) → t ∉ body := by
    intro t ht hsemi hword hmem
    rcases Derives.simple_tokens hd hc t ((mem_filter_significant ht).mp hmem) with h | ⟨w, h, -⟩
    · exact hsemi h
    · exact hword w h
  exact ⟨hno _ rfl (by decide) (fun _ h => by cases h), hno _ rfl (by decide) (fun _ h => by cases h)⟩

/-! ## The scan of an orderly text -/

theorem not_mem_of_filter_nil {gap : List Token} (hgap : gap.filter Token.significant = [])
    {t : Token} (ht : t.significant = true) : t ∉ gap := by
  intro hmem
  have hmem' := (mem_filter_significant ht).mp hmem
  rw [hgap] at hmem'
  cases hmem'

theorem not_mem_of_filter_words {body : List Token} {words : List Bytes}
    (hbody : body.filter Token.significant = words.map Token.word) {t : Token}
    (ht : t.significant = true) (hword : ∀ w ∈ words, t ≠ .word w) : t ∉ body := by
  intro hmem
  rw [mem_filter_significant ht, hbody] at hmem
  obtain ⟨w, hw, rfl⟩ := List.mem_map.mp hmem
  exact hword w hw rfl

theorem not_mem_append {t : Token} {a b : List Token} (ha : t ∉ a) (hb : t ∉ b) : t ∉ a ++ b :=
  fun h => (List.mem_append.mp h).elim ha hb

/-- The keyword is passed, and then the header is read. -/
theorem scanFrom_location {s lastToken : Bytes} {ts : List Token} {last : Last}
    (h : Lexes s (.word location :: ts) last) (hl : lastToken ≠ location) :
    ∃ rest, Lexes rest ts last ∧
      ∀ blocks, scanFrom lastToken s blocks = scanFrom location rest blocks :=
  scanFrom_pass h hl

/-- A statement without the keyword is passed. -/
theorem scanFrom_simple {s lastToken : Bytes} {body ts : List Token} {words : List Bytes} {last : Last}
    (hbody : body.filter Token.significant = words.map Token.word) (hword : location ∉ words)
    (h : Lexes s (body ++ .semicolon :: ts) last) (hl : lastToken ≠ location) :
    ∃ rest lastToken', Lexes rest ts last ∧ lastToken' ≠ location ∧
      ∀ blocks, scanFrom lastToken s blocks = scanFrom lastToken' rest blocks := by
  have hno : Token.word location ∉ body := by
    refine not_mem_of_filter_words hbody rfl fun w hw heq => hword ?_
    rw [Token.word.inj heq]
    exact hw
  rw [← List.singleton_append, ← List.append_assoc] at h
  exact scanFrom_append (not_mem_append hno (by simp)) h hl

theorem semicolon_ne_location : str ";" ≠ location := by decide

theorem closing_ne_location : str "\x7d" ≠ location := by decide

/-- A header is put before those that the rest of the scan collects. -/
theorem scan_cons {cfg : NginxConfig} {blocks : List ConfigBlock} {p h : Bytes}
    {result : Option (List ConfigBlock)}
    (hscan : ∃ headers, result = some (blocks ++ [⟨p, h, []⟩] ++ headers) ∧
      headers.map ConfigBlock.header = (configLocations cfg).map ConfigBlock.header)
    {child : NginxConfig} (hc : Simple child) :
    ∃ headers, result = some (blocks ++ headers) ∧ headers.map ConfigBlock.header =
      (configLocations (.mk [location, p, h] (some child) :: cfg)).map ConfigBlock.header := by
  obtain ⟨headers, hresult, hmap⟩ := hscan
  refine ⟨⟨p, h, []⟩ :: headers, ?_, ?_⟩
  · rw [hresult, List.append_assoc, List.singleton_append]
  · rw [locations_block hc, List.map_cons, List.map_cons, hmap]
    rfl

/-- **The scan of an orderly text** collects the header of each location statement. -/
theorem Orderly.scan {ts : List Token} {cfg : NginxConfig} (h : Orderly ts cfg) {s lastToken : Bytes}
    {last : Last} (hlex : Lexes s ts last) (hl : lastToken ≠ location) (blocks : List ConfigBlock) :
    ∃ headers, scanFrom lastToken s blocks = some (blocks ++ headers) ∧
      headers.map ConfigBlock.header = (configLocations cfg).map ConfigBlock.header := by
  induction h generalizing s lastToken blocks with
  | nil => exact ⟨[], by rw [scanFrom_nil hlex hl, List.append_nil], rfl⟩
  | comment _ ih =>
    obtain ⟨rest, hrest, hpass⟩ := scanFrom_pass hlex hl
    rw [hpass]
    exact ih hrest (value_ne_location (by simp)) blocks
  | @simple body ts words cfg hbody _ hword _ ih =>
    obtain ⟨rest, lastToken', hrest, hl', hpass⟩ := scanFrom_simple hbody hword hlex hl
    rw [hpass]
    exact ih hrest hl' blocks
  | @known p h gap body ts child cfg hh hgap hd hc _ ih =>
    obtain ⟨rest₁, hrest₁, hpass⟩ := scanFrom_location hlex hl
    have hassoc : gap ++ Token.opening :: (body ++ .closing :: ts) =
        (gap ++ .opening :: body) ++ .closing :: ts := by simp
    have hno : Token.closing ∉ gap ++ .opening :: body :=
      not_mem_append (not_mem_of_filter_nil hgap rfl) (by simpa using (no_brace hd hc).2)
    rw [hassoc] at hrest₁
    obtain ⟨rest₂, hrest₂, hheader⟩ := scanFrom_known hrest₁ hh hno
    rw [hpass, hheader]
    exact scan_cons (ih hrest₂ closing_ne_location _) hc
  | @static p h first rest ts child cfg hh hfirst hno hd hc _ ih =>
    obtain ⟨rest₁, hrest₁, hpass⟩ := scanFrom_location hlex hl
    obtain ⟨rest₂, hrest₂, hheader⟩ := scanFrom_static hrest₁ hh hfirst
    have hassoc : rest ++ Token.closing :: ts = (rest ++ [.closing]) ++ ts := by simp
    rw [hassoc] at hrest₂
    obtain ⟨rest₃, lastToken', hrest₃, hl', hskip⟩ :=
      scanFrom_append (not_mem_append hno (by simp)) hrest₂ semicolon_ne_location
    rw [hpass, hheader, hskip]
    exact scan_cons (ih hrest₃ hl' _) hc
  | @empty p h gap next ts words cfg hh hgap hnext _ _ ih =>
    obtain ⟨rest₁, hrest₁, hpass⟩ := scanFrom_location hlex hl
    have hassoc : gap ++ Token.closing :: (next ++ .semicolon :: ts) =
        (gap ++ .closing :: next) ++ .semicolon :: ts := by simp
    have hno : Token.semicolon ∉ gap ++ .closing :: next := by
      have hnext' := not_mem_of_filter_words hnext (t := .semicolon) rfl (fun _ _ h => by cases h)
      exact not_mem_append (not_mem_of_filter_nil hgap rfl) (by simpa using hnext')
    rw [hassoc] at hrest₁
    obtain ⟨rest₂, hrest₂, hheader⟩ := scanFrom_static hrest₁ hh hno
    rw [hpass, hheader]
    exact scan_cons (ih hrest₂ semicolon_ne_location _) fun _ hs => absurd hs List.not_mem_nil

/-! ## A text whose headers are all read is orderly -/

/-- A flat config in which the word `location` is nothing but a keyword. -/
inductive KeywordFlat : NginxConfig → Prop where
  | nil : KeywordFlat []
  | simple {words : List Bytes} {cfg : NginxConfig} : location ∉ words → KeywordFlat cfg →
      KeywordFlat (.mk words none :: cfg)
  | block {p h : Bytes} {child cfg : NginxConfig} : p ≠ location → h ≠ location → Simple child →
      (∀ s ∈ child, location ∉ s.tokens) → KeywordFlat cfg →
      KeywordFlat (.mk [location, p, h] (some child) :: cfg)

theorem AllStatements.mem {P : NginxConfigStatement → Prop} {cfg : NginxConfig}
    (h : AllStatements P cfg) : ∀ s ∈ cfg, P s := by
  induction h with
  | nil => exact fun _ hs => absurd hs List.not_mem_nil
  | simple hs _ ih => exact List.forall_mem_cons.mpr ⟨hs, ih⟩
  | block hs _ _ _ ih => exact List.forall_mem_cons.mpr ⟨hs, ih⟩

/-- A simple statement does not hold the word at all. -/
theorem not_mem_words {s : NginxConfigStatement} (hs : s.childBlock = none)
    (hform : s.tokens.head? = some location →
      s.tokens.length = 3 ∧ ∃ child, s.childBlock = some child)
    (hkey : location ∉ s.tokens.tail) : location ∉ s.tokens := by
  obtain ⟨words, child⟩ := s
  obtain rfl : child = none := hs
  intro hmem
  rcases words with - | ⟨w, words⟩
  · cases hmem
  · rcases List.mem_cons.mp hmem with rfl | hmem
    · obtain ⟨-, child, hchild⟩ := hform rfl
      cases hchild
    · exact hkey hmem

theorem Flat.keyword {cfg : NginxConfig} (h : Flat cfg) (hform : LocationForm cfg)
    (hkey : KeywordOnly cfg) : KeywordFlat cfg := by
  induction h with
  | nil => exact .nil
  | simple _ ih =>
    obtain - | ⟨hs, hform⟩ := hform
    obtain - | ⟨hk, hkey⟩ := hkey
    exact .simple (not_mem_words rfl hs hk) (ih hform hkey)
  | @block p h child cfg hc _ ih =>
    obtain - | - | ⟨-, hformc, hform⟩ := hform
    obtain - | - | ⟨hk, hkeyc, hkey⟩ := hkey
    have hwords : location ∉ [p, h] := hk
    rw [List.mem_cons, List.mem_singleton, not_or] at hwords
    refine .block (Ne.symm hwords.1) (Ne.symm hwords.2) hc (fun s hs => ?_) (ih hform hkey)
    exact not_mem_words (hc s hs) (hformc.mem s hs) (hkeyc.mem s hs)

section Split

variable {ts a b : List Token} {words : List Bytes} {p h : Bytes} {child cfg : NginxConfig}

/-- A token is found behind comments. -/
theorem split_significant {t : Token} {us : List Token}
    (hf : ts.filter Token.significant = t :: us) :
    ∃ gap rest, ts = gap ++ t :: rest ∧ gap.filter Token.significant = [] ∧
      rest.filter Token.significant = us := by
  obtain ⟨gap, rest, rfl, hgap, -, hrest⟩ := List.filter_eq_cons_iff.mp hf
  exact ⟨gap, rest, rfl, List.filter_eq_nil_iff.mpr hgap, hrest⟩

/-- Some tokens, and one behind comments after them. -/
theorem split_before {t : Token} {us vs : List Token}
    (hf : ts.filter Token.significant = us ++ t :: vs) :
    ∃ body rest, ts = body ++ t :: rest ∧ body.filter Token.significant = us ∧
      rest.filter Token.significant = vs := by
  obtain ⟨body, ts', rfl, hbody, hts'⟩ := List.filter_eq_append_iff.mp hf
  obtain ⟨gap, rest, rfl, hgap, hrest⟩ := split_significant hts'
  refine ⟨body ++ gap, rest, by rw [List.append_assoc], ?_, hrest⟩
  rw [List.filter_append, hbody, hgap, List.append_nil]

theorem split_simple (hd : Derives (ts.filter Token.significant) (.mk words none :: cfg)) :
    words ≠ [] ∧ ∃ body rest, ts = body ++ .semicolon :: rest ∧
      body.filter Token.significant = words.map Token.word ∧
      Derives (rest.filter Token.significant) cfg := by
  generalize hf : ts.filter Token.significant = us at hd
  obtain - | ⟨hne, hd⟩ := hd
  obtain ⟨body, rest, hts, hbody, hrest⟩ := split_before hf
  exact ⟨hne, body, rest, hts, hbody, hrest ▸ hd⟩

theorem split_block
    (hd : Derives (ts.filter Token.significant) (.mk [location, p, h] (some child) :: cfg)) :
    ∃ gap head body rest,
      ts = gap ++ .word location :: (head ++ .opening :: (body ++ .closing :: rest)) ∧
      gap.filter Token.significant = [] ∧ head.filter Token.significant = [.word p, .word h] ∧
      Derives (body.filter Token.significant) child ∧ Derives (rest.filter Token.significant) cfg := by
  generalize hf : ts.filter Token.significant = us at hd
  obtain - | - | ⟨-, hchild, hcfg⟩ := hd
  obtain ⟨gap, ts₁, rfl, hgap, hts₁⟩ := split_significant hf
  have hwords : ts₁.filter Token.significant = [Token.word p, .word h] ++ _ := hts₁
  obtain ⟨head, ts₂, rfl, hhead, hts₂⟩ := split_before hwords
  obtain ⟨body, rest, rfl, hbody, hrest⟩ := split_before hts₂
  exact ⟨gap, head, body, rest, rfl, hgap, hhead, hbody ▸ hchild, hrest ▸ hcfg⟩

/-- The two tokens after the keyword are the header, or comments come between. -/
theorem head_cases (hhead : ts.filter Token.significant = [.word p, .word h]) (hp : Word p) :
    ∃ t u more, ts = t :: u :: more ∧
      (t = .word p ∧ u = .word h ∧ more.filter Token.significant = [] ∨
        more ≠ [] ∧ (t.value ≠ p ∨ skipsBlock u.value = false)) := by
  have hcomment : ∀ c : Token, c.significant = false → c.value ≠ p ∧ skipsBlock c.value = false := by
    intro c hc
    cases c with
    | comment text =>
      exact ⟨fun hv => hp.head_ne (c := '#') (by decide) (by decide) (hv ▸ rfl), rfl⟩
    | word | semicolon | opening | closing => cases hc
  have hgap : ∀ {c : Token} {gap : List Token},
      (c :: gap).filter Token.significant = [] → c.significant = false := by
    intro c gap hnil
    have hmem := List.filter_eq_nil_iff.mp hnil c List.mem_cons_self
    exact Bool.not_eq_true _ ▸ hmem
  obtain ⟨gap, ts₁, rfl, hgap₁, hts₁⟩ := split_significant hhead
  obtain ⟨gap', ts₂, rfl, hgap₂, hts₂⟩ := split_significant hts₁
  rcases gap with - | ⟨c, gap⟩
  · rcases gap' with - | ⟨c', gap'⟩
    · exact ⟨_, _, ts₂, rfl, Or.inl ⟨rfl, rfl, hts₂⟩⟩
    · exact ⟨_, c', _, rfl, Or.inr ⟨by simp, Or.inr (hcomment c' (hgap hgap₂)).2⟩⟩
  · rcases gap with - | ⟨d, gap⟩
    · exact ⟨c, _, _, rfl, Or.inr ⟨by simp, Or.inl (hcomment c (hgap hgap₁)).1⟩⟩
    · exact ⟨c, d, _, rfl, Or.inr ⟨by simp, Or.inl (hcomment c (hgap hgap₁)).1⟩⟩

/-- The word is not in a block without it. -/
theorem no_location {body : List Token} (hd : Derives (body.filter Token.significant) child)
    (hc : Simple child) (hword : ∀ s ∈ child, location ∉ s.tokens) : Token.word location ∉ body := by
  intro hmem
  rcases Derives.simple_tokens hd hc _ ((mem_filter_significant rfl).mp hmem) with h | ⟨w, h, s, hs, hw⟩
  · cases h
  · exact hword s hs (Token.word.inj h ▸ hw)

/-- A block without a semicolon is empty. -/
theorem empty_of_no_semicolon {body : List Token}
    (hd : Derives (body.filter Token.significant) child) (hc : Simple child)
    (hsemi : Token.semicolon ∉ body) : child = [] ∧ body.filter Token.significant = [] := by
  rw [mem_filter_significant rfl] at hsemi
  generalize body.filter Token.significant = us at hd hsemi
  obtain - | - | - := hd
  · exact ⟨rfl, rfl⟩
  · exact absurd (List.mem_append_right _ List.mem_cons_self) hsemi
  · cases hc _ List.mem_cons_self

theorem length_head_locations (p h : Bytes) (cfg : NginxConfig) (hc : Simple child) :
    (configLocations (.mk [location, p, h] (some child) :: cfg)).length =
      (configLocations cfg).length + 1 := by
  rw [locations_block hc, List.length_cons]

/-- The first semicolon of a flat config ends its first statement, or it lies behind the
keyword of a location statement, which is skipped with it. -/
theorem first_semicolon (hk : KeywordFlat cfg) (hd : Derives (ts.filter Token.significant) cfg)
    (hts : ts = a ++ .semicolon :: b) (ha : Token.semicolon ∉ a) :
    (∃ words cfg', cfg = .mk words none :: cfg' ∧ words ≠ [] ∧
      a.filter Token.significant = words.map Token.word ∧ KeywordFlat cfg' ∧
      Derives (b.filter Token.significant) cfg') ∨
    ∃ u b' cfg', b = u ++ b' ∧ Token.word location ∉ u ∧ KeywordFlat cfg' ∧
      Derives (b'.filter Token.significant) cfg' ∧ cfg'.length < cfg.length ∧
      (configLocations cfg').length < (configLocations cfg).length := by
  induction hk generalizing ts a b with
  | nil =>
    have hmem : Token.semicolon ∈ ts := hts ▸ List.mem_append_right _ List.mem_cons_self
    generalize hf : ts.filter Token.significant = us at hd
    cases hd
    exact absurd hmem (not_mem_of_filter_nil hf rfl)
  | @simple words cfg _ hk _ =>
    obtain ⟨hne, body, rest, rfl, hbody, hrest⟩ := split_simple hd
    have hno : Token.semicolon ∉ body :=
      not_mem_of_filter_words hbody rfl fun _ _ h => by cases h
    obtain ⟨rfl, rfl⟩ := first_unique hts hno ha
    exact Or.inl ⟨words, cfg, rfl, hne, hbody, hk, hrest⟩
  | @block p h child cfg hp hh hc hword hk ih =>
    obtain ⟨gap, head, body, rest, rfl, hgap, hhead, hbody, hrest⟩ := split_block hd
    have hlen := length_head_locations p h cfg hc
    have hsemi : Token.semicolon ∉ gap ++ .word location :: (head ++ [.opening]) := by
      have hwords : head.filter Token.significant = [p, h].map Token.word := hhead
      have hhead' := not_mem_of_filter_words hwords (t := .semicolon) rfl (fun _ _ h => by cases h)
      have hgap' := not_mem_of_filter_nil hgap (t := .semicolon) rfl
      simp [hgap', hhead']
    by_cases hmem : Token.semicolon ∈ body
    · -- in its own block
      obtain ⟨first, last, rfl, hfirst⟩ := List.eq_append_cons_of_mem hmem
      have heq : (gap ++ .word location :: (head ++ [.opening]) ++ first) ++
          Token.semicolon :: (last ++ .closing :: rest) = a ++ .semicolon :: b := by
        rw [← hts]
        simp
      obtain ⟨rfl, rfl⟩ := first_unique heq (not_mem_append hsemi hfirst) ha
      have hno := no_location hbody hc hword
      refine Or.inr ⟨last ++ [.closing], rest, cfg, by simp, ?_, hk, hrest, Nat.lt_succ_self _, by omega⟩
      exact not_mem_append (fun h => hno (by simp [h])) (by simp)
    · -- behind it
      have hmem' : Token.semicolon ∈ rest := by
        have hin : Token.semicolon ∈ a ++ .semicolon :: b := by simp
        have hgap' := not_mem_of_filter_nil hgap (t := .semicolon) rfl
        rw [← hts] at hin
        simp only [List.mem_append, List.mem_cons] at hin hsemi
        simp only [not_or] at hsemi
        grind
      obtain ⟨first, last, rfl, hfirst⟩ := List.eq_append_cons_of_mem hmem'
      have heq : (gap ++ .word location :: (head ++ [.opening]) ++ (body ++ .closing :: first)) ++
          Token.semicolon :: last = a ++ .semicolon :: b := by
        rw [← hts]
        simp
      have hno : Token.semicolon ∉ body ++ .closing :: first :=
        not_mem_append hmem (by simpa using hfirst)
      obtain ⟨-, rfl⟩ := first_unique heq (not_mem_append hsemi hno) ha
      rcases ih hrest rfl hfirst with ⟨words, cfg', rfl, -, -, hk', hd'⟩ | ⟨u, b', cfg', rfl, hu, hk', hd', hlt, hlocs⟩
      · refine Or.inr ⟨[], last, cfg', rfl, List.not_mem_nil, hk', hd', ?_, ?_⟩
        · rw [List.length_cons, List.length_cons]
          omega
        · rw [hlen, configLocations, statementLocations, List.nil_append]
          exact Nat.lt_succ_self _
      · refine Or.inr ⟨u, b', cfg', rfl, hu, hk', hd', ?_, by omega⟩
        rw [List.length_cons]
        omega

end Split

/-- Comments alone are orderly. -/
theorem orderly_comments {gap : List Token} (hgap : gap.filter Token.significant = [])
    {ts : List Token} {cfg : NginxConfig} (h : Orderly ts cfg) : Orderly (gap ++ ts) cfg := by
  induction gap with
  | nil => exact h
  | cons t gap ih =>
    cases t with
    | comment text => exact .comment (ih hgap)
    | word | semicolon | opening | closing => cases hgap

/-- What the scan of a flat config, from a place that is no keyword, can collect. -/
def Collects (ts : List Token) (cfg : NginxConfig) (blocks result : List ConfigBlock) : Prop :=
  ∃ headers, result = blocks ++ headers ∧ headers.length ≤ (configLocations cfg).length ∧
    (headers.map ConfigBlock.header = (configLocations cfg).map ConfigBlock.header → Orderly ts cfg)

/-- Too few headers. -/
theorem collects_of_lt {ts ts' : List Token} {cfg cfg' : NginxConfig}
    {blocks result : List ConfigBlock} (h : Collects ts' cfg' blocks result)
    (hlt : (configLocations cfg').length < (configLocations cfg).length) :
    Collects ts cfg blocks result := by
  obtain ⟨headers, hresult, hle, -⟩ := h
  refine ⟨headers, hresult, by omega, fun hmap => ?_⟩
  have hlen := congrArg List.length hmap
  rw [List.length_map, List.length_map] at hlen
  omega

theorem collects_cons_lt {ts ts' : List Token} {cfg cfg' : NginxConfig} {b : ConfigBlock}
    {blocks result : List ConfigBlock} (h : Collects ts' cfg' (blocks ++ [b]) result)
    (hlt : (configLocations cfg').length + 1 < (configLocations cfg).length) :
    Collects ts cfg blocks result := by
  obtain ⟨headers, rfl, hle, -⟩ := h
  refine ⟨b :: headers, by simp, by rw [List.length_cons]; omega, fun hmap => ?_⟩
  have hlen := congrArg List.length hmap
  rw [List.length_map, List.length_map, List.length_cons] at hlen
  omega

/-- One header and those of the rest. -/
theorem collects_cons {ts ts' : List Token} {cfg cfg' : NginxConfig} {b : ConfigBlock}
    {p h : Bytes} {child : NginxConfig} {blocks result : List ConfigBlock} (hc : Simple child)
    (hrest : Collects ts' cfg' (blocks ++ [b]) result)
    (hlocs : configLocations cfg' = configLocations cfg)
    (horderly : b.header = (p, h) → Orderly ts' cfg' →
      Orderly ts (.mk [location, p, h] (some child) :: cfg)) :
    Collects ts (.mk [location, p, h] (some child) :: cfg) blocks result := by
  obtain ⟨headers, rfl, hle, hok⟩ := hrest
  refine ⟨b :: headers, by simp, ?_, fun hmap => ?_⟩
  · rw [length_head_locations _ _ _ hc, List.length_cons, ← hlocs]
    omega
  · rw [locations_block hc, List.map_cons, List.map_cons, ← hlocs] at hmap
    obtain ⟨hb, hmap⟩ := List.cons.inj hmap
    exact horderly hb (hok hmap)

/-- The scan of a flat config of at most `n` statements collects at most one header for each
location statement, and only from an orderly text all of them. -/
def Reads (n : Nat) : Prop :=
  ∀ (ts : List Token) (cfg : NginxConfig), cfg.length ≤ n → KeywordFlat cfg →
    Derives (ts.filter Token.significant) cfg →
    ∀ (s lastToken : Bytes) (last : Last) (blocks result : List ConfigBlock), last.type = .eof →
      Lexes s ts last → lastToken ≠ location → scanFrom lastToken s blocks = some result →
      Collects ts cfg blocks result

section Block

variable {n : Nat} {s p h : Bytes} {t u v : Token} {more gap body rest : List Token} {last : Last}
  {child cfg : NginxConfig} {blocks result : List ConfigBlock}

theorem reads_nil {ts : List Token} (hd : Derives (ts.filter Token.significant) []) {lastToken : Bytes}
    (hlex : Lexes s ts last) (hl : lastToken ≠ location)
    (hscan : scanFrom lastToken s blocks = some result) : Collects ts [] blocks result := by
  generalize hf : ts.filter Token.significant = us at hd
  cases hd
  rw [← List.append_nil ts] at hlex
  obtain ⟨s', lastToken', hlex', hl', hpass⟩ :=
    scanFrom_append (not_mem_of_filter_nil hf rfl) hlex hl
  rw [hpass, scanFrom_nil hlex' hl'] at hscan
  obtain rfl := Option.some.inj hscan
  refine ⟨[], by simp, Nat.le_refl _, fun _ => ?_⟩
  rw [← List.append_nil ts]
  exact orderly_comments hf .nil

theorem reads_simple (ih : Reads n) {ts : List Token} {words : List Bytes} {lastToken : Bytes}
    (hn : cfg.length ≤ n) (hword : location ∉ words) (hk : KeywordFlat cfg)
    (hd : Derives (ts.filter Token.significant) (.mk words none :: cfg)) (hlast : last.type = .eof)
    (hlex : Lexes s ts last) (hl : lastToken ≠ location)
    (hscan : scanFrom lastToken s blocks = some result) :
    Collects ts (.mk words none :: cfg) blocks result := by
  obtain ⟨hne, body, rest, rfl, hbody, hrest⟩ := split_simple hd
  obtain ⟨s', lastToken', hlex', hl', hpass⟩ := scanFrom_simple hbody hword hlex hl
  rw [hpass] at hscan
  obtain ⟨headers, hresult, hle, hok⟩ := ih _ _ hn hk hrest _ _ _ _ _ hlast hlex' hl' hscan
  exact ⟨headers, hresult, hle, fun hmap => .simple hbody hne hword (hok hmap)⟩

/-- A known handler type: its block is skipped. -/
theorem reads_known (ih : Reads n) (hn : cfg.length ≤ n) (hk : KeywordFlat cfg)
    (hlast : last.type = .eof) (hc : Simple child) (hbody : Derives (body.filter Token.significant) child)
    (hrest : Derives (rest.filter Token.significant) cfg) (hskip : skipsBlock u.value = true)
    (hmore : Token.closing ∉ more)
    (hcase : t = .word p ∧ u = .word h ∧ more.filter Token.significant = [] ∨
      more ≠ [] ∧ (t.value ≠ p ∨ skipsBlock u.value = false))
    (hlex : Lexes s (t :: u :: (more ++ .opening :: (body ++ .closing :: rest))) last)
    (hscan : scanFrom location s blocks = some result) :
    Collects (.word location :: t :: u :: (more ++ .opening :: (body ++ .closing :: rest)))
      (.mk [location, p, h] (some child) :: cfg) blocks result := by
  have hassoc : more ++ Token.opening :: (body ++ .closing :: rest) =
      (more ++ .opening :: body) ++ .closing :: rest := by simp
  rw [hassoc] at hlex
  have hno : Token.closing ∉ more ++ .opening :: body :=
    not_mem_append hmore (by simpa using (no_brace hbody hc).2)
  obtain ⟨s', hlex', hheader⟩ := scanFrom_known hlex hskip hno
  rw [hheader] at hscan
  have hcollects := ih _ _ hn hk hrest _ _ _ _ _ hlast hlex' closing_ne_location hscan
  refine collects_cons hc hcollects rfl fun hb horderly => ?_
  rcases hcase with ⟨rfl, rfl, hgap⟩ | ⟨-, hne | hno⟩
  · exact .known hskip hgap hbody hc horderly
  · exact absurd (Prod.mk.inj hb).1 hne
  · rw [hskip] at hno
    cases hno

/-- An unknown handler type without an opening brace right after it: no header is read. -/
theorem reads_other (ih : Reads n) (hn : cfg.length ≤ n) (hk : KeywordFlat cfg)
    (hlast : last.type = .eof) (hc : Simple child) (hrest : Derives (rest.filter Token.significant) cfg)
    (hskip : skipsBlock u.value = false) (hv : v ≠ .opening)
    (hno : Token.word location ∉ v :: more) (hbody : Token.word location ∉ body)
    (hlex : Lexes s (t :: u :: v :: (more ++ .opening :: (body ++ .closing :: rest))) last)
    (hscan : scanFrom location s blocks = some result) {ts : List Token} :
    Collects ts (.mk [location, p, h] (some child) :: cfg) blocks result := by
  rw [List.mem_cons, not_or] at hno
  obtain ⟨s', hlex', hpass⟩ := scanFrom_other hlex hskip hv
  have hassoc : more ++ Token.opening :: (body ++ .closing :: rest) =
      (more ++ .opening :: (body ++ [.closing])) ++ rest := by simp
  rw [hassoc] at hlex'
  obtain ⟨s'', lastToken, hlex'', hl, hpass'⟩ := scanFrom_append
    (not_mem_append hno.2 (by simpa using hbody)) hlex' (value_ne_location (Ne.symm hno.1))
  rw [hpass, hpass'] at hscan
  have hlen := length_head_locations p h cfg hc
  exact collects_of_lt (ih _ _ hn hk hrest _ _ _ _ _ hlast hlex'' hl hscan) (by omega)

/-- A static handler's block with a semicolon in it. -/
theorem reads_static (ih : Reads n) (hn : cfg.length ≤ n) (hk : KeywordFlat cfg)
    (hlast : last.type = .eof) (hc : Simple child) (hbody : Derives (body.filter Token.significant) child)
    (hrest : Derives (rest.filter Token.significant) cfg) (hskip : skipsBlock h = false)
    (hno : Token.word location ∉ body) (hsemi : Token.semicolon ∈ body)
    (hlex : Lexes s (.word p :: .word h :: .opening :: (body ++ .closing :: rest)) last)
    (hscan : scanFrom location s blocks = some result) :
    Collects (.word location :: .word p :: .word h :: .opening :: (body ++ .closing :: rest))
      (.mk [location, p, h] (some child) :: cfg) blocks result := by
  obtain ⟨first, more, rfl, hfirst⟩ := List.eq_append_cons_of_mem hsemi
  have hmore : Token.word location ∉ more := fun hmem => hno (by simp [hmem])
  have hassoc : first ++ Token.semicolon :: more ++ .closing :: rest =
      first ++ .semicolon :: (more ++ .closing :: rest) := by simp
  rw [hassoc] at hlex ⊢
  obtain ⟨s', hlex', hheader⟩ := scanFrom_static hlex hskip hfirst
  have hassoc' : more ++ Token.closing :: rest = (more ++ [.closing]) ++ rest := by simp
  rw [hassoc'] at hlex'
  obtain ⟨s'', lastToken, hlex'', hl, hpass⟩ :=
    scanFrom_append (not_mem_append hmore (by simp)) hlex' semicolon_ne_location
  rw [hheader, hpass] at hscan
  have hcollects := ih _ _ hn hk hrest _ _ _ _ _ hlast hlex'' hl hscan
  exact collects_cons hc hcollects rfl fun _ horderly => .static hskip hfirst hmore hbody hc horderly

/-- An empty static handler's block: the scan goes on behind the next semicolon. -/
theorem reads_empty (ih : Reads n) (hn : cfg.length ≤ n) (hk : KeywordFlat cfg)
    (hlast : last.type = .eof) (hbody : body.filter Token.significant = [])
    (hrest : Derives (rest.filter Token.significant) cfg) (hskip : skipsBlock h = false)
    (hlex : Lexes s (.word p :: .word h :: .opening :: (body ++ .closing :: rest)) last)
    (hscan : scanFrom location s blocks = some result) :
    Collects (.word location :: .word p :: .word h :: .opening :: (body ++ .closing :: rest))
      (.mk [location, p, h] (some []) :: cfg) blocks result := by
  have hc : Simple [] := fun _ hs => absurd hs List.not_mem_nil
  have hno : Token.semicolon ∉ body := not_mem_of_filter_nil hbody rfl
  by_cases hsemi : Token.semicolon ∈ rest
  · obtain ⟨first, more, rfl, hfirst⟩ := List.eq_append_cons_of_mem hsemi
    have hassoc : body ++ Token.closing :: (first ++ .semicolon :: more) =
        (body ++ .closing :: first) ++ .semicolon :: more := by simp
    have hfirst' : Token.semicolon ∉ body ++ .closing :: first :=
      not_mem_append hno (by simpa using hfirst)
    rw [hassoc] at hlex
    obtain ⟨s', hlex', hheader⟩ := scanFrom_static hlex hskip hfirst'
    rw [hheader] at hscan
    rcases first_semicolon hk hrest rfl hfirst with
      ⟨words, cfg', rfl, hne, hwords, hk', hd'⟩ | ⟨u, b', cfg', rfl, hu, hk', hd', hlt, hlocs⟩
    · -- a simple statement is skipped
      have hn' : cfg'.length ≤ n := Nat.le_of_succ_le hn
      have hcollects := ih _ _ hn' hk' hd' _ _ _ _ _ hlast hlex' semicolon_ne_location hscan
      exact collects_cons hc hcollects rfl fun _ horderly => .empty hskip hbody hwords hne horderly
    · -- a location statement is skipped
      obtain ⟨s'', lastToken, hlex'', hl, hpass⟩ := scanFrom_append hu hlex' semicolon_ne_location
      rw [hpass] at hscan
      have hcollects := ih _ _ (by omega) hk' hd' _ _ _ _ _ hlast hlex'' hl hscan
      refine collects_cons_lt hcollects ?_
      rw [length_head_locations _ _ _ hc]
      omega
  · have hstuck : Token.semicolon ∉ body ++ .closing :: rest :=
      not_mem_append hno (by simpa using hsemi)
    rw [scanFrom_stuck hlex hlast hskip hstuck] at hscan
    cases hscan

theorem reads_block (ih : Reads n) {ts : List Token} {lastToken : Bytes} (hn : cfg.length ≤ n)
    (hp : p ≠ location) (hh : h ≠ location) (hc : Simple child)
    (hword : ∀ s ∈ child, location ∉ s.tokens) (hk : KeywordFlat cfg)
    (hd : Derives (ts.filter Token.significant) (.mk [location, p, h] (some child) :: cfg))
    (hlast : last.type = .eof) (hlex : Lexes s ts last) (hl : lastToken ≠ location)
    (hscan : scanFrom lastToken s blocks = some result) :
    Collects ts (.mk [location, p, h] (some child) :: cfg) blocks result := by
  obtain ⟨gap, head, body, rest, rfl, hgap, hhead, hbody, hrest⟩ := split_block hd
  -- up to the keyword
  obtain ⟨s₀, l₀, hlex₀, hl₀, hpass₀⟩ := scanFrom_append (not_mem_of_filter_nil hgap rfl) hlex hl
  obtain ⟨s₁, hlex₁, hpass₁⟩ := scanFrom_location hlex₀ hl₀
  rw [hpass₀, hpass₁] at hscan
  have hheadwords : ∀ t, t.significant = true → t ≠ .word p → t ≠ .word h → t ∉ head := by
    intro t ht htp hth
    have hwords : head.filter Token.significant = [p, h].map Token.word := hhead
    exact not_mem_of_filter_words hwords ht (by simp [htp, hth])
  have hp' : Word p := by
    have hmem : Token.word p ∈ head := by
      rw [mem_filter_significant rfl, hhead]
      exact List.mem_cons_self
    exact hlex₁.word p (List.mem_append_left _ hmem)
  have hno := no_location hbody hc hword
  obtain ⟨t, u, more, rfl, hcase⟩ := head_cases hhead hp'
  suffices hblock : Collects
      (.word location :: t :: u :: (more ++ .opening :: (body ++ .closing :: rest)))
      (.mk [location, p, h] (some child) :: cfg) blocks result by
    obtain ⟨headers, hresult, hle, hok⟩ := hblock
    exact ⟨headers, hresult, hle, fun hmap => orderly_comments hgap (hok hmap)⟩
  have hmore : ∀ q, q ∉ t :: u :: more → q ∉ more := fun q hq hmem => hq (by simp [hmem])
  rcases hskip : skipsBlock u.value with - | -
  · rcases more with - | ⟨v, more⟩
    · obtain ⟨rfl, rfl, -⟩ | ⟨hnil, -⟩ := hcase
      · by_cases hsemi : Token.semicolon ∈ body
        · exact reads_static ih hn hk hlast hc hbody hrest hskip hno hsemi hlex₁ hscan
        · obtain ⟨rfl, hempty⟩ := empty_of_no_semicolon hbody hc hsemi
          exact reads_empty ih hn hk hlast hempty hrest hskip hlex₁ hscan
      · exact absurd rfl hnil
    · have hv : v ≠ .opening := by
        rintro rfl
        exact hheadwords .opening rfl (by simp) (by simp) (by simp)
      have hlocation : Token.word location ∉ v :: more := hmore _
        (hheadwords _ rfl (fun heq => hp (Token.word.inj heq).symm)
          (fun heq => hh (Token.word.inj heq).symm))
      exact reads_other ih hn hk hlast hc hrest hskip hv hlocation hno hlex₁ hscan
  · have hclosing := hmore _ (hheadwords .closing rfl (by simp) (by simp))
    exact reads_known ih hn hk hlast hc hbody hrest hskip hclosing hcase hlex₁ hscan

end Block

/-- **The scan of a flat config reads all its headers only from an orderly text**; by
induction on the number of statements. -/
theorem reads (n : Nat) : Reads n := by
  induction n with
  | zero =>
    intro ts cfg hn _ hd s lastToken last blocks result _ hlex hl hscan
    obtain rfl : cfg = [] := List.eq_nil_of_length_eq_zero (by omega)
    exact reads_nil hd hlex hl hscan
  | succ n ih =>
    intro ts cfg hn hk hd s lastToken last blocks result hlast hlex hl hscan
    cases hk with
    | nil => exact reads_nil hd hlex hl hscan
    | simple hword hk =>
      exact reads_simple ih (Nat.le_of_succ_le_succ hn) hword hk hd hlast hlex hl hscan
    | block hp hh hc hword hk =>
      exact reads_block ih (Nat.le_of_succ_le_succ hn) hp hh hc hword hk hd hlast hlex hl hscan

/-! ## setConfigBlocks -/

section Keeps

variable {file : Bytes} {ts : List Token} {last : Last} {cfg : NginxConfig}

/-- The headers of the scan, joined with the blocks of the parser. -/
theorem setConfigBlocks_eq (h : Lexes file ts last) (hlast : last.type = .eof)
    (hd : Derives (ts.filter Token.significant) cfg) :
    setConfigBlocks file =
      (scanFrom [] file []).bind fun headers => assignContents headers (configClosedBlocks cfg) := by
  rw [setConfigBlocks, parse_of_derives h hlast hd]
  rfl

theorem config_eq (h : Lexes file ts last) (hlast : last.type = .eof)
    (hd : Derives (ts.filter Token.significant) cfg) : (parse file).2.config = cfg := by
  rw [parse_of_derives h hlast hd]
  rfl

/-- The blocks are kept only where none lies in another one. -/
theorem flat_of_keeps (haccept : (parse file).1 = true) (hform : LocationForm (parse file).2.config)
    (hkeeps : Keeps file) : Flat (parse file).2.config := by
  obtain ⟨ts, last, h⟩ := exists_lexes file
  obtain ⟨hlast, cfg, hd⟩ := derives_of_parse h haccept
  rw [Keeps, setConfigBlocks_eq h hlast hd, config_eq h hlast hd] at hkeeps
  rw [config_eq h hlast hd] at hform ⊢
  obtain ⟨headers, -, hassign⟩ := Option.bind_eq_some_iff.mp hkeeps
  have hprefix := contents_prefix hassign
  have hle := length_configLocations_le cfg
  have hcontents := hprefix.eq_of_length_le (by rw [List.length_map]; exact hle)
  exact flat_of_contents hform hcontents.symm

/-- On a flat config the blocks are kept if the headers are read. -/
theorem keeps_iff (h : Lexes file ts last) (hlast : last.type = .eof)
    (hd : Derives (ts.filter Token.significant) cfg) (hflat : Flat cfg) :
    Keeps file ↔ ∃ headers, scanFrom [] file [] = some headers ∧
      headers.map ConfigBlock.header = (configLocations cfg).map ConfigBlock.header := by
  rw [Keeps, setConfigBlocks_eq h hlast hd, config_eq h hlast hd, ← hflat.contents,
    Option.bind_eq_some_iff]
  exact exists_congr fun headers => and_congr_right fun _ => assignContents_iff headers _

theorem keeps_of_orderly (haccept : (parse file).1 = true) (horderly : OrderlyText file) :
    Keeps file := by
  obtain ⟨ts, last, cfg, h, ho⟩ := horderly
  obtain ⟨hlast, -⟩ := derives_of_parse h haccept
  have hstart : ([] : Bytes) ≠ location := by decide
  obtain ⟨headers, hscan, hmap⟩ := ho.scan h hstart []
  exact (keeps_iff h hlast ho.derives ho.flat).mpr ⟨headers, hscan, hmap⟩

theorem orderly_of_keeps (haccept : (parse file).1 = true)
    (hform : LocationForm (parse file).2.config) (hkey : KeywordOnly (parse file).2.config)
    (hkeeps : Keeps file) : OrderlyText file := by
  have hflat := flat_of_keeps haccept hform hkeeps
  obtain ⟨ts, last, h⟩ := exists_lexes file
  obtain ⟨hlast, cfg, hd⟩ := derives_of_parse h haccept
  rw [config_eq h hlast hd] at hflat hform hkey
  obtain ⟨headers, hscan, hmap⟩ := (keeps_iff h hlast hd hflat).mp hkeeps
  obtain ⟨headers', rfl, -, hok⟩ := reads _ ts cfg (Nat.le_refl _) (hflat.keyword hform hkey) hd _ _ _
    _ _ hlast h (by decide) hscan
  exact ⟨ts, last, cfg, h, hok hmap⟩

end Keeps

/-- **When every location keeps its own block**, in an accepted text whose location statements
have the form `location PREFIX HANDLER { ... }`: if the text is orderly. It is needed that no
block lies in another one, and, if `location` is nothing but a keyword, all of it. -/
theorem setConfigBlocks_keeps {file : Bytes} (haccept : (parse file).1 = true)
    (hform : LocationForm (parse file).2.config) :
    (OrderlyText file → Keeps file) ∧ (Keeps file → Flat (parse file).2.config) ∧
      (KeywordOnly (parse file).2.config → (Keeps file ↔ OrderlyText file)) :=
  ⟨keeps_of_orderly haccept, flat_of_keeps haccept hform, fun hkey =>
    ⟨orderly_of_keeps haccept hform hkey, keeps_of_orderly haccept⟩⟩

/-- A static and a known location: both blocks are kept. -/
theorem setConfigBlocks_keeps_two :
    Keeps (configToStr 0
      [.mk [location, str "/", str "StaticHandler"] (some [.mk [str "root", str "/x"] none]),
        .mk [location, str "/e", str "EchoHandler"] (some [])]) := by
  generalize hcfg : ([.mk [location, str "/", str "StaticHandler"]
    (some [.mk [str "root", str "/x"] none]), .mk [location, str "/e", str "EchoHandler"]
      (some [])] : NginxConfig) = cfg
  have hprintable : Printable cfg := by
    subst hcfg
    refine .block (by simp) ?_ (.simple (by simp) ?_ .nil) (.block (by simp) ?_ .nil .nil)
    · simp only [List.forall_mem_cons]
      exact ⟨⟨str "location;", _, rfl⟩, ⟨str "/;", _, rfl⟩, ⟨str "StaticHandler;", _, rfl⟩, by simp⟩
    · simp only [List.forall_mem_cons]
      exact ⟨⟨str "root;", _, rfl⟩, ⟨str "/x;", _, rfl⟩, by simp⟩
    · simp only [List.forall_mem_cons]
      exact ⟨⟨str "location;", _, rfl⟩, ⟨str "/e;", _, rfl⟩, ⟨str "EchoHandler;", _, rfl⟩, by simp⟩
  have hform : LocationForm cfg := by
    subst hcfg
    exact .block (fun _ => ⟨rfl, _, rfl⟩) (.simple (fun h => absurd h (by decide)) .nil)
      (.block (fun _ => ⟨rfl, _, rfl⟩) .nil .nil)
  have horderly : Orderly (configTokens cfg) cfg := by
    subst hcfg
    have hroot : Derives [.word (str "root"), .word (str "/x"), .semicolon]
        [.mk [str "root", str "/x"] none] :=
      @Derives.simple [str "root", str "/x"] [] [] (List.cons_ne_nil _ _) .nil
    refine @Orderly.static _ _ [.word (str "root"), .word (str "/x")] [] _ _ _ (by decide) (by decide)
      List.not_mem_nil hroot (by simp [Simple, NginxConfigStatement.childBlock]) ?_
    exact @Orderly.known _ _ [] [] [] _ _ (by decide) rfl .nil (by simp [Simple]) .nil
  obtain ⟨haccept, hconfig⟩ := parse_configToStr hprintable
  rw [← hconfig] at hform
  exact (setConfigBlocks_keeps haccept hform).1 ⟨_, _, _, hprintable.lexes, horderly⟩

/-- A location inside of another block: the index of the outer block is out of range. -/
theorem setConfigBlocks_nested :
    ¬ ∀ file, (parse file).1 = true → LocationForm (parse file).2.config → Keeps file := by
  intro hall
  generalize hcfg : ([.mk [str "server"]
    (some [.mk [location, str "/a", str "EchoHandler"] (some [])])] : NginxConfig) = cfg at *
  have hprintable : Printable cfg := by
    subst hcfg
    refine .block (by simp) ?_ (.block (by simp) ?_ .nil .nil) .nil
    · simp only [List.forall_mem_cons]
      exact ⟨⟨str "server;", _, rfl⟩, by simp⟩
    · simp only [List.forall_mem_cons]
      exact ⟨⟨str "location;", _, rfl⟩, ⟨str "/a;", _, rfl⟩, ⟨str "EchoHandler;", _, rfl⟩, by simp⟩
  have hform : LocationForm cfg := by
    subst hcfg
    exact .block (fun h => absurd h (by decide)) (.block (fun _ => ⟨rfl, _, rfl⟩) .nil .nil) .nil
  obtain ⟨haccept, hconfig⟩ := parse_configToStr hprintable
  rw [← hconfig] at hform
  have hflat := flat_of_keeps haccept hform (hall _ haccept hform)
  rw [hconfig, ← hcfg] at hflat
  cases hflat

end Port

end LowKeyWebServer
