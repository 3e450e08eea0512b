import LowKeyWebServer.ConfigMemory
import Mathlib.Data.List.Forall2

/-!
# The closed blocks of a config

`StatementsAt` reads a tree off the memory of the config parser, in the objects of a region.
`Represents` relates the parser's two models: every block around the top one is open at its last
statement, and the objects on the way there are the only ones outside of the region, so that
no write touches what is closed. `Represents.step` carries it through the loop, and
`blocks_closed` reads the list of closed blocks off at its end.
-/

namespace LowKeyWebServer

namespace NginxConfigParser

/-! ## Trees in memory -/

mutual

/-- The statement at an address, with its child block; all its objects are in a region. -/
inductive StatementAt (memory : Memory) (region : Address → Prop) :
    Address → NginxConfigStatement → Prop where
  | simple {i : Address} {tokens : List Bytes} : region i →
      memory[i]? = some (.statement tokens none) → StatementAt memory region i (.mk tokens none)
  | block {i c : Address} {tokens : List Bytes} {is : List Address}
      {block : List NginxConfigStatement} : region i → region c →
      memory[i]? = some (.statement tokens (some c)) → memory[c]? = some (.config is) →
      StatementsAt memory region is block → StatementAt memory region i (.mk tokens (some block))

/-- The statements at some addresses. -/
inductive StatementsAt (memory : Memory) (region : Address → Prop) :
    List Address → List NginxConfigStatement → Prop where
  | nil : StatementsAt memory region [] []
  | cons {i : Address} {is : List Address} {s : NginxConfigStatement}
      {cfg : List NginxConfigStatement} : StatementAt memory region i s →
      StatementsAt memory region is cfg → StatementsAt memory region (i :: is) (s :: cfg)

end

/-- What is in a region is there afterwards, in a region again. -/
def Kept (memory memory' : Memory) (region region' : Address → Prop) : Prop :=
  ∀ (i : Address) (o : Object), region i → memory[i]? = some o → region' i ∧ memory'[i]? = some o

section Trees

variable {memory memory' : Memory} {region region' : Address → Prop}

mutual

/-- A tree in a region that is kept is a tree afterwards. -/
theorem StatementAt.kept (hkept : Kept memory memory' region region') :
    ∀ {i : Address} {s : NginxConfigStatement}, StatementAt memory region i s →
      StatementAt memory' region' i s
  | _, _, .simple hi ho => .simple (hkept _ _ hi ho).1 (hkept _ _ hi ho).2
  | _, _, .block hi hc hio hco hblock =>
    .block (hkept _ _ hi hio).1 (hkept _ _ hc hco).1 (hkept _ _ hi hio).2 (hkept _ _ hc hco).2
      (StatementsAt.kept hkept hblock)

theorem StatementsAt.kept (hkept : Kept memory memory' region region') :
    ∀ {is : List Address} {cfg : List NginxConfigStatement}, StatementsAt memory region is cfg →
      StatementsAt memory' region' is cfg
  | _, _, .nil => .nil
  | _, _, .cons hs hcfg => .cons (StatementAt.kept hkept hs) (StatementsAt.kept hkept hcfg)

end

/-- One more statement. -/
theorem StatementsAt.concat {is : List Address} {cfg : NginxConfig} {i : Address}
    {s : NginxConfigStatement} (hcfg : StatementsAt memory region is cfg)
    (hs : StatementAt memory region i s) : StatementsAt memory region (is ++ [i]) (cfg ++ [s]) := by
  induction is generalizing cfg with
  | nil =>
    cases hcfg
    exact .cons hs .nil
  | cons j is ih =>
    cases hcfg with
    | cons hj hcfg => exact .cons hj (ih hcfg)

end Trees

/-! ## Open blocks in memory -/

/-- The configs around an open one, from the inside: it is the child block of the last statement
of the first. `open` lists these statements and configs. -/
inductive Around (memory : Memory) (region : Address → Prop) :
    Address → List Address → List Address → List NginxConfig → Prop where
  | nil {c : Address} : Around memory region c [] [] []
  | cons {c a k : Address} {stack opened is : List Address} {words : List Bytes}
      {outer : NginxConfig} {below : List NginxConfig} :
      memory[a]? = some (.config (is ++ [k])) → memory[k]? = some (.statement words (some c)) →
      StatementsAt memory region is outer → Around memory region a stack opened below →
      Around memory region c (a :: stack) (k :: a :: opened)
        ((outer ++ [.mk words (some [])]) :: below)

/-- What surrounds the config on top of the stack: the blocks around it, and the copies of the closed
ones. The open objects are younger the further inside they are, and none is in the region. -/
structure Surrounds (memory : Memory) (root config : Address) (stack opened inner : List Address)
    (below : List NginxConfig) (contents : List (List Address)) (blocks : List NginxConfig) : Prop where
  /-- the blocks around it -/
  around : Around memory (· ∉ inner ++ config :: opened) config stack opened below
  /-- the copies -/
  contents : List.Forall₂ (StatementsAt memory (· ∉ inner ++ config :: opened)) contents blocks
  /-- younger objects come first -/
  order : (inner ++ config :: opened).Pairwise (· > ·)
  /-- the first config is the one that `Parse` was called with -/
  root : (config :: stack).getLast? = some root

/-- The two models are in the same state. -/
inductive Represents (root : Address) : HeapState → ParserState → Prop where
  /-- between two statements -/
  | boundary {memory : Memory} {config : Address} {stack opened is : List Address}
      {cfg : NginxConfig} {below blocks : List NginxConfig} {braces : Nat} {last : TokenType}
      {contents : List (List Address)} : last ≠ .normal → memory[config]? = some (.config is) →
      StatementsAt memory (· ∉ config :: opened) is cfg →
      Surrounds memory root config stack opened [] below contents blocks →
      Represents root ⟨memory, config :: stack, braces, last, contents⟩
        ⟨cfg, below, braces, last, blocks⟩
  /-- after a word: the last statement is open -/
  | word {memory : Memory} {config k : Address} {stack opened is : List Address}
      {cfg : NginxConfig} {tokens : List Bytes} {below blocks : List NginxConfig} {braces : Nat}
      {contents : List (List Address)} : memory[config]? = some (.config (is ++ [k])) →
      memory[k]? = some (.statement tokens none) →
      StatementsAt memory (· ∉ k :: config :: opened) is cfg →
      Surrounds memory root config stack opened [k] below contents blocks →
      Represents root ⟨memory, config :: stack, braces, .normal, contents⟩
        ⟨cfg ++ [.mk tokens none], below, braces, .normal, blocks⟩

section Writes

variable {memory memory' : Memory} {region region' : Address → Prop} {root config k : Address}
  {stack opened inner is : List Address} {below blocks : List NginxConfig}
  {contents : List (List Address)} {tokens : List Bytes}

theorem Around.kept (hkept : Kept memory memory' region region')
    (hopened : ∀ i ∈ opened, ∀ o, memory[i]? = some o → memory'[i]? = some o)
    (h : Around memory region config stack opened below) :
    Around memory' region' config stack opened below := by
  induction h with
  | nil => exact .nil
  | cons ha hk houter _ ih =>
    refine .cons (hopened _ (by simp) _ ha) (hopened _ (by simp) _ hk) (houter.kept hkept) (ih ?_)
    exact fun i hi => hopened i (List.mem_cons_of_mem _ (List.mem_cons_of_mem _ hi))

theorem Around.length_eq (h : Around memory region config stack opened below) :
    stack.length = below.length := by
  induction h with
  | nil => rfl
  | cons _ _ _ _ ih => exact congrArg (· + 1) ih

/-- The objects around are there. -/
theorem Around.lt (h : Around memory region config stack opened below) :
    ∀ i ∈ opened, i < memory.length := by
  induction h with
  | nil => exact fun _ hi => absurd hi List.not_mem_nil
  | cons ha hk _ _ ih =>
    exact List.forall_mem_cons.mpr
      ⟨lt_of_getElem? hk, List.forall_mem_cons.mpr ⟨lt_of_getElem? ha, ih⟩⟩

/-- A write inside of what it surrounds. -/
theorem Surrounds.write {inner' : List Address}
    (h : Surrounds memory root config stack opened inner below contents blocks)
    (hkept : Kept memory memory' (· ∉ inner ++ config :: opened) (· ∉ inner' ++ config :: opened))
    (hopened : ∀ i ∈ opened, ∀ o, memory[i]? = some o → memory'[i]? = some o)
    (horder : (inner' ++ config :: opened).Pairwise (· > ·)) :
    Surrounds memory' root config stack opened inner' below contents blocks where
  around := h.around.kept hkept hopened
  contents := h.contents.imp fun _ _ hcfg => hcfg.kept hkept
  order := horder
  root := h.root

/-- Fewer objects are open. -/
theorem kept_of_subset {opens opens' : List Address} (hsub : opens' ⊆ opens) :
    Kept memory memory (· ∉ opens) (· ∉ opens') :=
  fun _ _ hi ho => ⟨fun hmem => hi (hsub hmem), ho⟩

/-- A write to an open object. -/
theorem kept_set {opens : List Address} (hk : k ∈ opens) (o' : Object) :
    Kept memory (memory.set k o') (· ∉ opens) (· ∉ opens) := by
  intro i o hi ho
  refine ⟨hi, ?_⟩
  rw [List.getElem?_set_ne, ho]
  rintro rfl
  exact hi hk

/-- A write to an open object, and a new one that is open too. -/
theorem kept_new {opens : List Address} (hk : k ∈ opens)
    (hold : ∀ i o, i ≠ k → memory[i]? = some o → memory'[i]? = some o) :
    Kept memory memory' (· ∉ opens) (· ∉ memory.length :: opens) := by
  intro i o hi ho
  refine ⟨fun hmem => ?_, hold i o ?_ ho⟩
  · rcases List.mem_cons.mp hmem with rfl | hmem
    · exact Nat.lt_irrefl _ (lt_of_getElem? ho)
    · exact hi hmem
  · rintro rfl
    exact hi hk

end Writes

/-! ## One token -/

section Steps

variable {memory : Memory} {root config k : Address} {stack opened is : List Address}
  {cfg : NginxConfig} {below blocks : List NginxConfig} {braces n : Nat} {last : TokenType}
  {contents : List (List Address)} {tokens : List Bytes} {token : Bytes}

/-- The first word of a statement opens it. -/
theorem represents_first (hconfig : memory[config]? = some (.config is))
    (hcfg : StatementsAt memory (· ∉ config :: opened) is cfg)
    (hsur : Surrounds memory root config stack opened [] below contents blocks) (token : Bytes) :
    Represents root ⟨addStatement memory config is token, config :: stack, n, .normal, contents⟩
      ⟨cfg ++ [.mk [token] none], below, n, .normal, blocks⟩ := by
  obtain ⟨hgrown, hnew, hold⟩ := getElem?_addStatement hconfig token
  have hkept : Kept memory (addStatement memory config is token) (· ∉ config :: opened)
      (· ∉ memory.length :: config :: opened) := kept_new List.mem_cons_self hold
  have hbelow : ∀ i ∈ opened, i < config := (List.pairwise_cons.mp hsur.order).1
  refine .word hgrown hnew (hcfg.kept hkept) (hsur.write hkept (fun i hi o ho => ?_) ?_)
  · exact hold i o (Nat.ne_of_lt (hbelow i hi)) ho
  · refine List.pairwise_cons.mpr ⟨fun i hi => ?_, hsur.order⟩
    rcases List.mem_cons.mp hi with rfl | hi
    · exact lt_of_getElem? hconfig
    · exact hsur.around.lt i hi

/-- Another word. -/
theorem represents_word (hconfig : memory[config]? = some (.config (is ++ [k])))
    (hk : memory[k]? = some (.statement tokens none))
    (hcfg : StatementsAt memory (· ∉ k :: config :: opened) is cfg)
    (hsur : Surrounds memory root config stack opened [k] below contents blocks) (token : Bytes) :
    Represents root ⟨memory.set k (.statement (tokens ++ [token]) none), config :: stack, n, .normal,
        contents⟩
      ⟨cfg ++ [.mk (tokens ++ [token]) none], below, n, .normal, blocks⟩ := by
  have hkept : Kept memory (memory.set k (.statement (tokens ++ [token]) none))
      (· ∉ k :: config :: opened) (· ∉ k :: config :: opened) :=
    kept_set List.mem_cons_self _
  have hyounger : ∀ i ∈ config :: opened, i < k := (List.pairwise_cons.mp hsur.order).1
  have hset : ∀ i ∈ config :: opened, ∀ o, memory[i]? = some o →
      (memory.set k (.statement (tokens ++ [token]) none))[i]? = some o := by
    intro i hi o ho
    rw [List.getElem?_set_ne (Nat.ne_of_gt (hyounger i hi)), ho]
  refine .word (hset config List.mem_cons_self _ hconfig) (List.getElem?_set_self (lt_of_getElem? hk))
    (hcfg.kept hkept) (hsur.write hkept (fun i hi => hset i (List.mem_cons_of_mem _ hi)) hsur.order)

/-- A semicolon closes the statement. -/
theorem represents_semicolon (hconfig : memory[config]? = some (.config (is ++ [k])))
    (hk : memory[k]? = some (.statement tokens none))
    (hcfg : StatementsAt memory (· ∉ k :: config :: opened) is cfg)
    (hsur : Surrounds memory root config stack opened [k] below contents blocks) :
    Represents root ⟨memory, config :: stack, n, .statementEnd, contents⟩
      ⟨cfg ++ [.mk tokens none], below, n, .statementEnd, blocks⟩ := by
  have hkept : Kept memory memory (· ∉ k :: config :: opened) (· ∉ config :: opened) :=
    kept_of_subset (List.subset_cons_self _ _)
  obtain ⟨hyounger, horder⟩ := List.pairwise_cons.mp hsur.order
  have hclosed : k ∉ config :: opened := fun hmem => Nat.lt_irrefl k (hyounger k hmem)
  exact .boundary (by simp) hconfig ((hcfg.kept hkept).concat (.simple hclosed hk))
    (hsur.write hkept (fun _ _ _ ho => ho) horder)

/-- An opening brace makes the statement surround a new config. -/
theorem represents_opening (hconfig : memory[config]? = some (.config (is ++ [k])))
    (hk : memory[k]? = some (.statement tokens none))
    (hcfg : StatementsAt memory (· ∉ k :: config :: opened) is cfg)
    (hsur : Surrounds memory root config stack opened [k] below contents blocks) :
    Represents root ⟨addBlock memory k tokens, memory.length :: config :: stack, n, .startBlock,
        contents⟩
      ⟨[], (cfg ++ [.mk tokens (some [])]) :: below, n, .startBlock, blocks⟩ := by
  obtain ⟨hstatement, hnew, hold⟩ := getElem?_addBlock hk
  have hkept : Kept memory (addBlock memory k tokens) (· ∉ k :: config :: opened)
      (· ∉ memory.length :: k :: config :: opened) := kept_new List.mem_cons_self hold
  have hyounger : ∀ i ∈ config :: opened, i < k := (List.pairwise_cons.mp hsur.order).1
  have hopened : ∀ i ∈ config :: opened, ∀ o, memory[i]? = some o →
      (addBlock memory k tokens)[i]? = some o := fun i hi o ho =>
    hold i o (Nat.ne_of_lt (hyounger i hi)) ho
  have horder : (memory.length :: k :: config :: opened).Pairwise (· > ·) := by
    refine List.pairwise_cons.mpr ⟨?_, hsur.order⟩
    exact List.forall_mem_cons.mpr ⟨lt_of_getElem? hk,
      List.forall_mem_cons.mpr ⟨lt_of_getElem? hconfig, hsur.around.lt⟩⟩
  refine .boundary (by simp) hnew .nil ⟨?_, ?_, horder, ?_⟩
  · exact .cons (hopened config List.mem_cons_self _ hconfig) hstatement (hcfg.kept hkept)
      (hsur.around.kept hkept fun i hi => hopened i (List.mem_cons_of_mem _ hi))
  · exact hsur.contents.imp fun _ _ hblock => hblock.kept hkept
  · rw [List.getLast?_cons_cons]
    exact hsur.root

/-- A closing brace closes the config, and the statement that it belongs to. -/
theorem represents_closing {newest : Address}
    (hconfig : memory[newest]? = some (.config is))
    (hcfg : StatementsAt memory (· ∉ newest :: opened) is cfg)
    (hsur : Surrounds memory root newest (config :: stack) opened [] below contents blocks) :
    ∃ outer words below', below = (outer ++ [.mk words (some [])]) :: below' ∧
      Represents root ⟨memory, config :: stack, n, .endBlock, contents ++ [is]⟩
        ⟨outer ++ [.mk words (some cfg)], below', n, .endBlock, blocks ++ [cfg]⟩ := by
  obtain ⟨haround, hcontents, horder, hroot⟩ := hsur
  rw [List.nil_append] at haround hcontents horder
  cases haround with
  | @cons _ _ k _ opened _ words outer below ha hk houter haround =>
    have hkept : Kept memory memory (· ∉ newest :: k :: config :: opened) (· ∉ config :: opened) :=
      kept_of_subset fun i hi => List.mem_cons_of_mem _ (List.mem_cons_of_mem _ hi)
    obtain ⟨hnewest, horder⟩ := List.pairwise_cons.mp horder
    obtain ⟨hk', horder⟩ := List.pairwise_cons.mp horder
    have hkclosed : k ∉ config :: opened := fun hmem => Nat.lt_irrefl k (hk' k hmem)
    have hclosed : newest ∉ config :: opened := fun hmem =>
      Nat.lt_irrefl newest (hnewest newest (List.mem_cons_of_mem _ hmem))
    refine ⟨outer, words, below, rfl, .boundary (by simp) ha ?_ ⟨?_, ?_, horder, ?_⟩⟩
    · exact (houter.kept hkept).concat (.block hkclosed hclosed hk hconfig (hcfg.kept hkept))
    · exact haround.kept hkept fun _ _ _ ho => ho
    · exact List.rel_append (hcontents.imp fun _ _ hblock => hblock.kept hkept)
        (.cons (hcfg.kept hkept) .nil)
    · rw [List.getLast?_cons_cons] at hroot
      exact hroot

end Steps

/-- The two models do the same. -/
def Agree (root : Address) : HeapControl → Control → Prop
  | .next s, .next v => Represents root s v
  | .exit e s, .stop ret v => e.ret = ret ∧ (ret = true → Represents root s v)
  | _, _ => False

theorem agree_false {root : Address} {e : Exit} {s : HeapState} {v : ParserState}
    (he : e.ret = false) : Agree root (.exit e s) (.stop false v) :=
  ⟨he, fun h => absurd h Bool.false_ne_true⟩

section Agree

variable {memory : Memory} {root config k : Address} {stack opened is : List Address}
  {cfg : NginxConfig} {below blocks : List NginxConfig} {braces : Nat} {last : TokenType}
  {contents : List (List Address)} {tokens : List Bytes}

/-- A token between two statements. -/
theorem agree_boundary (hl : last ≠ .normal) (hconfig : memory[config]? = some (.config is))
    (hcfg : StatementsAt memory (· ∉ config :: opened) is cfg)
    (hsur : Surrounds memory root config stack opened [] below contents blocks)
    (tokenType : TokenType) (token : Bytes) :
    Agree root (heapStep ⟨memory, config :: stack, braces, last, contents⟩ tokenType token)
      (parseStep ⟨cfg, below, braces, last, blocks⟩ tokenType token) := by
  rcases hb : trackBraces braces token with - | n
  · rw [heapStep, parseStep, hb]
    exact agree_false rfl
  have hagain : ∀ n last', last' ≠ .normal →
      Represents root ⟨memory, config :: stack, n, last', contents⟩ ⟨cfg, below, n, last', blocks⟩ :=
    fun n last' hl' => .boundary hl' hconfig hcfg hsur
  cases tokenType with
  | error | start =>
    rw [heapStep, parseStep, hb]
    exact agree_false rfl
  | comment =>
    rw [heapStep, parseStep, hb]
    exact hagain n last hl
  | normal =>
    by_cases hstarts : Boundary last
    · rw [heapStep_first hb hstarts hconfig, parseStep_first hb hstarts]
      exact represents_first hconfig hcfg hsur token
    · have hno := mt word_allowed_iff.mp (not_or.mpr ⟨hstarts, hl⟩)
      rw [heapStep, parseStep, hb]
      dsimp only
      rw [if_neg hno, if_neg hno]
      exact agree_false rfl
  | statementEnd | startBlock =>
    rw [heapStep, parseStep, hb]
    dsimp only
    rw [if_pos hl, if_pos hl]
    exact agree_false rfl
  | endBlock =>
    by_cases hcloses : Boundary last ∧ last ≠ .start
    · rcases stack with - | ⟨outer, stack⟩
      · -- the outermost config: no block is around it
        obtain rfl : below = [] := List.eq_nil_of_length_eq_zero hsur.around.length_eq.symm
        have hyes := mt closing_refused_iff.mp (not_not.mpr hcloses)
        rw [heapStep, parseStep, hb]
        dsimp only
        rw [if_neg hyes, if_neg hyes, if_pos (Nat.le_of_eq List.length_singleton)]
        exact agree_false rfl
      · obtain ⟨surrounding, words, below, rfl, hrep⟩ := represents_closing hconfig hcfg hsur
        rw [heapStep_closing hb hcloses.1 hcloses.2 hconfig,
          parseStep_closing hb hcloses.1 hcloses.2]
        exact hrep
    · have hno := closing_refused_iff.mpr hcloses
      rw [heapStep, parseStep, hb]
      dsimp only
      rw [if_pos hno, if_pos hno]
      exact agree_false rfl
  | eof =>
    rw [heapStep, parseStep, hb]
    dsimp only
    by_cases hends : last ≠ .statementEnd ∧ last ≠ .endBlock ∧ last ≠ .start
    · rw [if_pos hends, if_pos hends]
      exact agree_false rfl
    rw [if_neg hends, if_neg hends]
    rcases stack with - | ⟨outer, stack⟩
    · obtain rfl : below = [] := List.eq_nil_of_length_eq_zero hsur.around.length_eq.symm
      rw [if_neg (not_not.mpr List.length_singleton), if_neg (not_not.mpr rfl)]
      by_cases hn : n ≠ 0
      · rw [if_pos hn, if_pos hn]
        exact agree_false rfl
      · rw [if_neg hn, if_neg hn]
        exact ⟨rfl, fun _ => hagain n last hl⟩
    · -- an open block
      have hbelow : below ≠ [] := by
        rintro rfl
        cases hsur.around.length_eq
      rw [if_pos (by simp), if_pos hbelow]
      exact agree_false rfl

/-- A token after a word. -/
theorem agree_word (hconfig : memory[config]? = some (.config (is ++ [k])))
    (hk : memory[k]? = some (.statement tokens none))
    (hcfg : StatementsAt memory (· ∉ k :: config :: opened) is cfg)
    (hsur : Surrounds memory root config stack opened [k] below contents blocks)
    (tokenType : TokenType) (token : Bytes) :
    Agree root (heapStep ⟨memory, config :: stack, braces, .normal, contents⟩ tokenType token)
      (parseStep ⟨cfg ++ [.mk tokens none], below, braces, .normal, blocks⟩ tokenType token) := by
  rcases hb : trackBraces braces token with - | n
  · rw [heapStep, parseStep, hb]
    exact agree_false rfl
  cases tokenType with
  | error | start | endBlock | eof =>
    rw [heapStep, parseStep, hb]
    exact agree_false rfl
  | comment =>
    rw [heapStep, parseStep, hb]
    exact .word hconfig hk hcfg hsur
  | normal =>
    rw [heapStep_word hb hconfig hk, parseStep_word hb]
    exact represents_word hconfig hk hcfg hsur token
  | statementEnd =>
    rw [heapStep, parseStep, hb]
    exact represents_semicolon hconfig hk hcfg hsur
  | startBlock =>
    rw [heapStep_opening hb hconfig hk, parseStep_opening hb]
    exact represents_opening hconfig hk hcfg hsur

end Agree

/-- **One token**: from states that represent each other the models do the same. -/
theorem Represents.step {root : Address} {s : HeapState} {v : ParserState} (h : Represents root s v)
    (tokenType : TokenType) (token : Bytes) :
    Agree root (heapStep s tokenType token) (parseStep v tokenType token) := by
  cases h with
  | boundary hl hconfig hcfg hsur => exact agree_boundary hl hconfig hcfg hsur tokenType token
  | word hconfig hk hcfg hsur => exact agree_word hconfig hk hcfg hsur tokenType token

/-! ## A whole text -/

/-- **The loop**: both models return the same, and represent each other where that is true. -/
theorem Represents.loop {root : Address} {s : HeapState} {v : ParserState} (h : Represents root s v)
    (input : Bytes) : ∃ e s', heapLoop s input = some (e, s') ∧ e.ret = (parseLoop v input).1 ∧
      (e.ret = true → Represents root s' (parseLoop v input).2) := by
  induction hn : input.length using Nat.strongRecOn generalizing s v input with
  | _ n ih =>
    subst hn
    rcases hp : parseToken input with ⟨tokenType, token, rest⟩
    have hagree := h.step tokenType token
    rcases hs : heapStep s tokenType token with s' | ⟨e, s'⟩ | - <;>
      rcases hv : parseStep v tokenType token with v' | ⟨ret, v'⟩ <;> rw [hs, hv] at hagree
    · obtain ⟨heof, herr⟩ := ne_of_heapStep_next hs
      rw [heapLoop_next hp hs, parseLoop_next hp hv]
      exact ih _ (length_parseToken_lt hp heof herr) hagree rest rfl
    · exact hagree.elim
    · exact hagree.elim
    · obtain ⟨rfl, hrep⟩ := hagree
      rw [heapLoop_exit hp hs, parseLoop_stop hp hv]
      exact ⟨e, s', rfl, rfl, hrep⟩
    · exact hagree.elim
    · exact hagree.elim

/-- A new config represents the empty one. -/
theorem represents_enter : Represents 0 (.enter [.config []] 0 []) .initial :=
  .boundary (by simp) rfl .nil
    ⟨.nil, .nil, List.pairwise_singleton _ _, rfl⟩

/-- The tree of a config. -/
def ConfigAt (memory : Memory) (config : Address) (cfg : NginxConfig) : Prop :=
  ∃ is, memory[config]? = some (.config is) ∧ StatementsAt memory (fun _ => True) is cfg

theorem kept_everywhere {memory : Memory} {opens : List Address} :
    Kept memory memory (· ∉ opens) (fun _ => True) := fun _ _ _ ho => ⟨trivial, ho⟩

/-- **Blocks are collected in the order in which they are closed**: where `Parse` accepts a text, it
leaves its tree in memory, and `config_blocks_content` is the list of all child blocks of that tree,
an inner block before the one around it and siblings from left to right; each copy is complete. -/
theorem blocks_closed (input : Bytes) (s : HeapState) (h : heapParse input = some (.accepted, s)) :
    ConfigAt s.memory 0 (parse input).2.config ∧
      List.Forall₂ (StatementsAt s.memory fun _ => True) s.configBlocksContent
        (configClosedBlocks (parse input).2.config) := by
  obtain ⟨e, s', hloop, hret, hrep⟩ := represents_enter.loop input
  obtain ⟨rfl, rfl⟩ := Prod.mk.inj (Option.some.inj (h.symm.trans hloop))
  obtain ⟨ts, last, hlex⟩ := exists_lexes input
  obtain ⟨heof, cfg, hderives⟩ := derives_of_parse hlex hret.symm
  have hparse : parseLoop .initial input =
      (true, ⟨cfg, [], 0, lastType .start cfg, configClosedBlocks cfg⟩) :=
    parse_of_derives hlex heof hderives
  have hconfig : (parse input).2.config = cfg := by
    rw [parse, hparse]
    rfl
  have hlast : lastType .start cfg ≠ .normal := (boundary_lastType (Or.inl rfl) cfg).ne_normal
  have hrep := hrep rfl
  rw [hparse] at hrep
  rw [hconfig]
  generalize configClosedBlocks cfg = blocks at hrep ⊢
  generalize lastType .start cfg = final at hrep hlast
  cases hrep with
  | word => exact absurd rfl hlast
  | boundary _ hconfig hcfg hsur =>
    obtain rfl := List.eq_nil_of_length_eq_zero hsur.around.length_eq
    obtain rfl := Option.some.inj hsur.root
    exact ⟨⟨_, hconfig, hcfg.kept kept_everywhere⟩,
      hsur.contents.imp fun _ _ hblock => hblock.kept kept_everywhere⟩

/-- A block with two blocks in it. -/
def twoInner : Bytes := str "a \x7b b \x7b c; \x7d d \x7b \x7d \x7d e;"

/-- The theorem at a block with two blocks in it: three copies. -/
theorem blocks_closed_twoInner : ∃ s, heapParse twoInner = some (.accepted, s) ∧
    s.configBlocksContent.length = 3 ∧
    List.Forall₂ (StatementsAt s.memory fun _ => True) s.configBlocksContent
      (configClosedBlocks (parse twoInner).2.config) := by
  have hrun : (heapParse twoInner).map (fun out => (out.1, out.2.configBlocksContent.length)) =
      some (.accepted, 3) := by decide +kernel
  obtain ⟨⟨e, s⟩, hparse, hout⟩ := Option.map_eq_some_iff.mp hrun
  obtain ⟨rfl, hlength⟩ := Prod.mk.inj hout
  exact ⟨s, hparse, hlength, (blocks_closed twoInner s hparse).2⟩

end NginxConfigParser

end LowKeyWebServer
