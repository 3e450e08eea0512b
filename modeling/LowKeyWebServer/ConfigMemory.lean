import LowKeyWebServer.ConfigParserCorrect
import Mathlib.Logic.Relation

/-!
# The config parser and its memory

`NginxConfigParser::Parse` with the objects that it makes: `config_stack` holds addresses, a
statement and the config around it are objects of their own, and `config_blocks_content` keeps
copies. Each way out of the loop has its name, and `top()` of an empty stack or `back()` of an
empty vector is a `fault`.

* `StackInv`: what holds at every head of the loop (`StackInv.safe`, `safe_heads`);
* `heapParse_defined`: `Parse` returns.
-/

namespace LowKeyWebServer

namespace NginxConfigParser

/-! ## Memory -/

/-- Where an object is. -/
abbrev Address : Type := Nat

/-- An object that `Parse` makes or changes. -/
inductive Object : Type where
  /-- a `NginxConfigStatement`: `tokens_`, and where `child_block_` is -/
  | statement (tokens : List Bytes) (childBlock : Option Address)
  /-- a `NginxConfig`: where its `statements_` are -/
  | config (statements : List Address)

/-- The objects, in the order in which they were made; none is taken away. -/
abbrev Memory : Type := List Object

/-- The locals of `Parse`, the objects, and the parser's list of closed blocks. -/
structure HeapState : Type where
  /-- the objects -/
  memory : Memory
  /-- `config_stack`, from the top -/
  configStack : List Address
  /-- the height of `braces_stack` -/
  braces : Nat
  /-- `last_token_type` -/
  lastTokenType : TokenType
  /-- `config_blocks_content`: the `statements_` of each copy -/
  configBlocksContent : List (List Address)

namespace HeapState

/-- At the start of `Parse`, with `config`. -/
def enter (memory : Memory) (config : Address) (contents : List (List Address)) : HeapState :=
  ⟨memory, [config], 0, .start, contents⟩

/-- `config_stack.top()`, and its `statements_`. -/
def top (s : HeapState) : Option (Address × List Address) :=
  match s.configStack with
  | [] => none
  | config :: _ =>
    match s.memory[config]? with
    | some (.config statements) => some (config, statements)
    | some (.statement _ _) => none
    | none => none

/-- `config_stack.top()->statements_.back()`, with its members. -/
def back (s : HeapState) : Option (Address × List Bytes × Option Address) :=
  match s.top with
  | none => none
  | some (_, statements) =>
    match statements.getLast? with
    | none => none
    | some statement =>
      match s.memory[statement]? with
      | some (.statement tokens childBlock) => some (statement, tokens, childBlock)
      | some (.config _) => none
      | none => none

/-- `config_stack.top()->statements_.emplace_back(new NginxConfigStatement)`. -/
def emplaceBack (s : HeapState) : Option HeapState :=
  s.top.map fun (config, statements) =>
    let statement := s.memory.length
    let memory : Memory := s.memory ++ [.statement [] none]
    { s with memory := memory.set config (.config (statements ++ [statement])) }

/-- `config_stack.top()->statements_.back().get()->tokens_.push_back(token)`. -/
def pushBack (token : Bytes) (s : HeapState) : Option HeapState :=
  s.back.map fun (statement, tokens, childBlock) =>
    { s with memory := s.memory.set statement (.statement (tokens ++ [token]) childBlock) }

/-- `new NginxConfig`, put into the last statement's `child_block_` and onto the stack. -/
def openBlock (s : HeapState) : Option HeapState :=
  let newConfig := s.memory.length
  let memory : Memory := s.memory ++ [.config []]
  let s := { s with memory := memory }
  s.back.map fun (statement, tokens, _) =>
    { s with memory := s.memory.set statement (.statement tokens (some newConfig)),
             configStack := newConfig :: s.configStack }

/-- `config_blocks_content.push_back(*config_stack.top())`, and `config_stack.pop()`. -/
def closeBlock (s : HeapState) : Option HeapState :=
  s.top.map fun (_, statements) =>
    { s with configBlocksContent := s.configBlocksContent ++ [statements],
             configStack := s.configStack.tail }

end HeapState

/-! ## The loop -/

/-- The ways out of the loop of `Parse`. -/
inductive Exit : Type where
  /-- a `}` on an empty `braces_stack` -/
  | unmatchedBrace
  /-- `TOKEN_TYPE_ERROR` -/
  | errorToken
  /-- a token that must not come here -/
  | badTransition
  /-- "too many right braces" -/
  | tooManyRight
  /-- "too many left braces" -/
  | tooManyLeft
  /-- a `braces_stack` that is not empty at the end -/
  | openBraces
  /-- `return true` -/
  | accepted
  deriving DecidableEq

/-- What `Parse` returns. -/
def Exit.ret : Exit → Bool
  | accepted => true
  | _ => false

/-- What a token does. -/
inductive HeapControl : Type where
  /-- the next token -/
  | next (s : HeapState)
  /-- the loop is left -/
  | exit (e : Exit) (s : HeapState)
  /-- `top()` or `back()` of nothing -/
  | fault

/-- The body of the loop of `Parse`. -/
def heapStep (s : HeapState) (tokenType : TokenType) (token : Bytes) : HeapControl :=
  match trackBraces s.braces token with
  | none => .exit .unmatchedBrace s
  | some braces =>
    let s := { s with braces := braces }
    match tokenType with
    | .error => .exit .errorToken s
    -- comments are skipped
    | .comment => .next s
    | .start => .exit .badTransition s
    | .normal =>
      if s.lastTokenType = .start ∨ s.lastTokenType = .statementEnd ∨
          s.lastTokenType = .startBlock ∨ s.lastTokenType = .endBlock ∨
          s.lastTokenType = .normal then
        let emplaced := if s.lastTokenType ≠ .normal then s.emplaceBack else some s
        match emplaced.bind (HeapState.pushBack token) with
        | none => .fault
        | some s => .next { s with lastTokenType := .normal }
      else .exit .badTransition s
    | .statementEnd =>
      if s.lastTokenType ≠ .normal then .exit .badTransition s
      else .next { s with lastTokenType := .statementEnd }
    | .startBlock =>
      if s.lastTokenType ≠ .normal then .exit .badTransition s
      else
        match s.openBlock with
        | none => .fault
        | some s => .next { s with lastTokenType := .startBlock }
    | .endBlock =>
      if s.lastTokenType ≠ .statementEnd ∧ s.lastTokenType ≠ .endBlock ∧
          s.lastTokenType ≠ .startBlock then .exit .badTransition s
      else if s.configStack.length ≤ 1 then .exit .tooManyRight s
      else
        match s.closeBlock with
        | none => .fault
        | some s => .next { s with lastTokenType := .endBlock }
    | .eof =>
      if s.lastTokenType ≠ .statementEnd ∧ s.lastTokenType ≠ .endBlock ∧
          s.lastTokenType ≠ .start then .exit .badTransition s
      else if s.configStack.length ≠ 1 then .exit .tooManyLeft s
      else if s.braces ≠ 0 then .exit .openBraces s
      else .exit .accepted s

/-- The loop goes on after a token that does not end the stream. -/
theorem ne_of_heapStep_next {s s' : HeapState} {tokenType : TokenType} {token : Bytes}
    (h : heapStep s tokenType token = .next s') : tokenType ≠ .eof ∧ tokenType ≠ .error := by
  rw [heapStep] at h
  split at h
  · cases h
  · cases tokenType <;> dsimp only at h
    case eof =>
      repeat' split at h
      all_goals cases h
    case error => cases h
    all_goals exact ⟨by simp, by simp⟩

/-- The loop of `Parse`; `none` is a fault. -/
def heapLoop (s : HeapState) (input : Bytes) : Option (Exit × HeapState) :=
  match h : parseToken input with
  | (tokenType, token, rest) =>
    match hs : heapStep s tokenType token with
    | .fault => none
    | .exit e s' => some (e, s')
    | .next s' =>
      have : rest.length < input.length :=
        length_parseToken_lt h (ne_of_heapStep_next hs).1 (ne_of_heapStep_next hs).2
      heapLoop s' rest
  termination_by input.length

/-! ## The first character of a token -/

/-- A token that has begun keeps its first character, and is no brace. -/
theorem head_parseTokenFrom (state : TokenParserState) (hstate : state ≠ .initialWhitespace) (c : Byte)
    (value input : Bytes) :
    (parseTokenFrom state (c :: value) input).2.1.head? = some c ∧
      (parseTokenFrom state (c :: value) input).1 ≠ .startBlock ∧
      (parseTokenFrom state (c :: value) input).1 ≠ .endBlock := by
  induction input generalizing state value with
  | nil =>
    rw [parseTokenFrom]
    split <;> exact ⟨rfl, by simp, by simp⟩
  | cons d input ih =>
    cases state <;> rw [parseTokenFrom]
    case initialWhitespace => exact absurd rfl hstate
    all_goals
      split
      · exact ⟨rfl, by simp, by simp⟩
      · exact ih _ (by simp) (value ++ [d])

/-- `braces_stack` after a token of the type. -/
def bracesAfter (tokenType : TokenType) (braces : Nat) : Option Nat :=
  match tokenType with
  | .startBlock => some (braces + 1)
  | .endBlock => if braces = 0 then none else some (braces - 1)
  | _ => some braces

/-- A token that begins with a character of its own. -/
theorem trackBraces_begun {state : TokenParserState} {c : Byte} {input token rest : Bytes}
    {tokenType : TokenType} (h : parseTokenFrom state [c] input = (tokenType, token, rest))
    (hstate : state ≠ .initialWhitespace) (hopen : c ≠ '\x7b') (hclose : c ≠ '\x7d') (braces : Nat) :
    trackBraces braces token = bracesAfter tokenType braces := by
  obtain ⟨hhead, hstart, hend⟩ := head_parseTokenFrom state hstate c [] input
  rw [h] at hhead hstart hend
  rw [trackBraces, hhead, if_neg (by simpa using hopen), if_neg (by simpa using hclose)]
  cases tokenType <;> first | rfl | exact absurd rfl hstart | exact absurd rfl hend

/-- **`braces_stack` goes by the token's type**: the first character of a token is a brace exactly
where the token is one. -/
theorem trackBraces_parseToken {input token rest : Bytes} {tokenType : TokenType}
    (h : parseToken input = (tokenType, token, rest)) (braces : Nat) :
    trackBraces braces token = bracesAfter tokenType braces := by
  rw [parseToken] at h
  induction input with
  | nil =>
    rw [parseTokenFrom, if_neg (by simp)] at h
    cases h
    rfl
  | cons c input ih =>
    rw [parseTokenFrom] at h
    by_cases hopen : c = '\x7b'
    · rw [if_pos hopen] at h
      cases h
      rw [hopen]
      rfl
    by_cases hclose : c = '\x7d'
    · rw [if_neg hopen, if_pos hclose] at h
      cases h
      rw [hclose]
      rfl
    rw [if_neg hopen, if_neg hclose] at h
    split at h
    · exact trackBraces_begun h (by simp) hopen hclose braces
    split at h
    · exact trackBraces_begun h (by simp) hopen hclose braces
    split at h
    · exact trackBraces_begun h (by simp) hopen hclose braces
    split at h
    · next hc =>
      cases h
      rw [hc]
      rfl
    split at h
    · exact ih h
    · exact trackBraces_begun h (by simp) hopen hclose braces

/-! ## What a token does -/

section Steps

variable {memory : Memory} {config newest statement : Address} {stack statements : List Address}
  {braces n : Nat} {last : TokenType} {contents : List (List Address)} {token : Bytes}
  {tokens : List Bytes} {childBlock : Option Address}

theorem top_eq (hconfig : memory[config]? = some (.config statements)) :
    HeapState.top ⟨memory, config :: stack, braces, last, contents⟩ = some (config, statements) := by
  rw [HeapState.top]
  dsimp only
  rw [hconfig]

theorem back_eq (hconfig : memory[config]? = some (.config (statements ++ [statement])))
    (hstatement : memory[statement]? = some (.statement tokens childBlock)) :
    HeapState.back ⟨memory, config :: stack, braces, last, contents⟩ =
      some (statement, tokens, childBlock) := by
  rw [HeapState.back, top_eq hconfig]
  dsimp only
  rw [List.getLast?_concat]
  dsimp only
  rw [hstatement]

/-- The memory with a statement of one token at the end of a config. -/
def addStatement (memory : Memory) (config : Address) (statements : List Address) (token : Bytes) :
    Memory :=
  let grown : Memory := memory ++ [.statement [] none]
  (grown.set config (.config (statements ++ [memory.length]))).set memory.length
    (.statement [token] none)

/-- The memory with a config as the child block of a statement. -/
def addBlock (memory : Memory) (statement : Address) (tokens : List Bytes) : Memory :=
  let grown : Memory := memory ++ [.config []]
  grown.set statement (.statement tokens (some memory.length))

theorem lt_concat {i : Address} (h : i < memory.length) (o : Object) : i < (memory ++ [o]).length := by
  rw [List.length_append]
  exact Nat.lt_add_right _ h

theorem lt_of_getElem? {i : Address} {o : Object} (h : memory[i]? = some o) : i < memory.length :=
  (List.getElem?_eq_some_iff.mp h).1

/-- The config with its new statement, that statement, and the objects that stay. -/
theorem getElem?_addStatement (hconfig : memory[config]? = some (.config statements)) (token : Bytes) :
    (addStatement memory config statements token)[config]? =
        some (.config (statements ++ [memory.length])) ∧
      (addStatement memory config statements token)[memory.length]? = some (.statement [token] none) ∧
      ∀ i o, i ≠ config → memory[i]? = some o →
        (addStatement memory config statements token)[i]? = some o := by
  have hlt := lt_of_getElem? hconfig
  rw [addStatement]
  refine ⟨?_, ?_, fun i o hi ho => ?_⟩
  · rw [List.getElem?_set_ne (Nat.ne_of_gt hlt), List.getElem?_set_self (lt_concat hlt _)]
  · rw [List.getElem?_set_self (by simp)]
  · have hi' := lt_of_getElem? ho
    rw [List.getElem?_set_ne (Nat.ne_of_gt hi'), List.getElem?_set_ne (Ne.symm hi),
      List.getElem?_append_left hi', ho]

/-- The statement with its new child block, that config, and the objects that stay. -/
theorem getElem?_addBlock (hstatement : memory[statement]? = some (.statement tokens childBlock)) :
    (addBlock memory statement tokens)[statement]? = some (.statement tokens (some memory.length)) ∧
      (addBlock memory statement tokens)[memory.length]? = some (.config []) ∧
      ∀ i o, i ≠ statement → memory[i]? = some o →
        (addBlock memory statement tokens)[i]? = some o := by
  have hlt := lt_of_getElem? hstatement
  rw [addBlock]
  refine ⟨?_, ?_, fun i o hi ho => ?_⟩
  · rw [List.getElem?_set_self (lt_concat hlt _)]
  · rw [List.getElem?_set_ne (Nat.ne_of_lt hlt), List.getElem?_concat_length]
  · rw [List.getElem?_set_ne (Ne.symm hi), List.getElem?_append_left (lt_of_getElem? ho), ho]

/-- The first word of a statement. -/
theorem heapStep_first (hb : trackBraces braces token = some n) (hl : Boundary last)
    (hconfig : memory[config]? = some (.config statements)) :
    heapStep ⟨memory, config :: stack, braces, last, contents⟩ .normal token =
      .next ⟨addStatement memory config statements token, config :: stack, n, .normal, contents⟩ := by
  have hlt := lt_of_getElem? hconfig
  let grown : Memory := memory ++ [.statement [] none]
  have hgrown : (grown.set config (.config (statements ++ [memory.length])))[config]? =
      some (.config (statements ++ [memory.length])) := List.getElem?_set_self (lt_concat hlt _)
  have hnew : (grown.set config (.config (statements ++ [memory.length])))[memory.length]? =
      some (.statement [] none) := by
    rw [List.getElem?_set_ne (Nat.ne_of_lt hlt), List.getElem?_concat_length]
  rw [heapStep, hb]
  dsimp only
  rw [if_pos (word_allowed_iff.mpr (Or.inl hl)), if_pos hl.ne_normal, HeapState.emplaceBack,
    top_eq hconfig, Option.map_some, Option.bind_some, HeapState.pushBack, back_eq hgrown hnew,
    Option.map_some]
  rfl

/-- Another word of a statement. -/
theorem heapStep_word (hb : trackBraces braces token = some n)
    (hconfig : memory[config]? = some (.config (statements ++ [statement])))
    (hstatement : memory[statement]? = some (.statement tokens childBlock)) :
    heapStep ⟨memory, config :: stack, braces, .normal, contents⟩ .normal token =
      .next ⟨memory.set statement (.statement (tokens ++ [token]) childBlock), config :: stack, n,
        .normal, contents⟩ := by
  rw [heapStep, hb]
  dsimp only
  rw [if_pos (by simp), if_neg (by simp), Option.bind_some, HeapState.pushBack,
    back_eq hconfig hstatement, Option.map_some]

/-- The start of a block. -/
theorem heapStep_opening (hb : trackBraces braces token = some n)
    (hconfig : memory[config]? = some (.config (statements ++ [statement])))
    (hstatement : memory[statement]? = some (.statement tokens childBlock)) :
    heapStep ⟨memory, config :: stack, braces, .normal, contents⟩ .startBlock token =
      .next ⟨addBlock memory statement tokens, memory.length :: config :: stack, n, .startBlock,
        contents⟩ := by
  have hgrown : ∀ {i : Address} {o : Object}, memory[i]? = some o →
      (memory ++ [.config []] : Memory)[i]? = some o := fun ho => by
    rw [List.getElem?_append_left (lt_of_getElem? ho), ho]
  rw [heapStep, hb]
  dsimp only
  rw [if_neg (by simp), HeapState.openBlock]
  dsimp only
  rw [back_eq (hgrown hconfig) (hgrown hstatement), Option.map_some]
  rfl

/-- The end of a block. -/
theorem heapStep_closing (hb : trackBraces braces token = some n) (hl : Boundary last)
    (hs : last ≠ .start) (hconfig : memory[newest]? = some (.config statements)) :
    heapStep ⟨memory, newest :: config :: stack, braces, last, contents⟩ .endBlock token =
      .next ⟨memory, config :: stack, n, .endBlock, contents ++ [statements]⟩ := by
  rw [heapStep, hb]
  dsimp only
  rw [if_neg (mt closing_refused_iff.mp (not_not.mpr ⟨hl, hs⟩)), if_neg (by simp),
    HeapState.closeBlock, top_eq hconfig, Option.map_some]
  rfl

end Steps

/-! ## The stack invariant -/

/-- The invariant of the loop. -/
structure StackInv (s : HeapState) : Prop where
  /-- `config_stack` has one element more than `braces_stack` -/
  length : s.configStack.length = s.braces + 1
  /-- what it holds are configs -/
  configs : ∀ config ∈ s.configStack, ∃ statements, s.memory[config]? = some (.config statements)
  /-- after a word, the top config has a last statement, with a token and without a child block -/
  normal : s.lastTokenType = .normal → ∃ config stack statements statement tokens,
    s.configStack = config :: stack ∧
    s.memory[config]? = some (.config (statements ++ [statement])) ∧
    s.memory[statement]? = some (.statement tokens none) ∧ tokens ≠ []

/-- No child block is overwritten: a statement that has one stays as it is. -/
def KeepsBlocks (memory memory' : Memory) : Prop :=
  ∀ (i : Address) (tokens : List Bytes) (block : Address),
    memory[i]? = some (.statement tokens (some block)) →
      memory'[i]? = some (.statement tokens (some block))

/-- The body of the loop is safe: it keeps the invariant and every child block, calls neither
`top()` nor `back()` of nothing, and does not take the two exits that only unequal stacks lead to. -/
def HeapControl.Safe (s : HeapState) : HeapControl → Prop
  | .next s' => StackInv s' ∧ KeepsBlocks s.memory s'.memory
  | .exit e _ => e ≠ .tooManyRight ∧ e ≠ .openBraces
  | .fault => False

/-- A token that must not come here is no danger. -/
theorem safe_badTransition (s s' : HeapState) : (HeapControl.exit .badTransition s').Safe s :=
  ⟨by simp, by simp⟩

theorem stackInv_enter {memory : Memory} {config : Address}
    (hconfig : ∃ statements, memory[config]? = some (.config statements))
    (contents : List (List Address)) : StackInv (.enter memory config contents) where
  length := rfl
  configs := List.forall_mem_singleton.mpr hconfig
  normal := fun h => by cases h

section Keep

variable {memory memory' : Memory} {written : Address}

/-- A write that is not to a statement with a child block keeps them all. -/
theorem keepsBlocks_of_write
    (hold : ∀ i o, i ≠ written → memory[i]? = some o → memory'[i]? = some o)
    (hwritten : ∀ tokens block, memory[written]? ≠ some (.statement tokens (some block))) :
    KeepsBlocks memory memory' := by
  intro i tokens block ho
  refine hold i _ ?_ ho
  rintro rfl
  exact hwritten tokens block ho

/-- Configs stay configs under a write that leaves them, or is to one of them. -/
theorem configs_of_write (hold : ∀ i o, i ≠ written → memory[i]? = some o → memory'[i]? = some o)
    (hwritten : ∀ statements, memory[written]? = some (.config statements) →
      ∃ statements', memory'[written]? = some (.config statements')) {stack : List Address}
    (hstack : ∀ config ∈ stack, ∃ statements, memory[config]? = some (.config statements)) :
    ∀ config ∈ stack, ∃ statements, memory'[config]? = some (.config statements) := by
  intro config hmem
  obtain ⟨statements, ho⟩ := hstack config hmem
  by_cases heq : config = written
  · subst heq
    exact hwritten statements ho
  · exact ⟨statements, hold config _ heq ho⟩

variable {tokens : List Bytes}

/-- A statement without a child block is written. -/
theorem keepsBlocks_of_statement
    (hold : ∀ i o, i ≠ written → memory[i]? = some o → memory'[i]? = some o)
    (hwritten : memory[written]? = some (.statement tokens none)) : KeepsBlocks memory memory' := by
  refine keepsBlocks_of_write hold fun tokens' block ho => ?_
  rw [hwritten] at ho
  cases ho

theorem configs_of_statement
    (hold : ∀ i o, i ≠ written → memory[i]? = some o → memory'[i]? = some o)
    (hwritten : memory[written]? = some (.statement tokens none)) {stack : List Address}
    (hstack : ∀ config ∈ stack, ∃ statements, memory[config]? = some (.config statements)) :
    ∀ config ∈ stack, ∃ statements, memory'[config]? = some (.config statements) := by
  refine configs_of_write hold (fun statements ho => ?_) hstack
  rw [hwritten] at ho
  cases ho

end Keep

section Turn

variable {memory : Memory} {stack : List Address} {braces : Nat} {last : TokenType}
  {contents : List (List Address)} {token : Bytes}

/-- A word. -/
theorem safe_normal (hs : StackInv ⟨memory, stack, braces, last, contents⟩)
    (hb : trackBraces braces token = some braces) :
    (heapStep ⟨memory, stack, braces, last, contents⟩ .normal token).Safe
      ⟨memory, stack, braces, last, contents⟩ := by
  obtain ⟨hlength, hconfigs, hnormal⟩ := hs
  by_cases hl : Boundary last
  · -- the first one: there is a top config
    rcases stack with - | ⟨config, stack⟩
    · cases hlength
    obtain ⟨statements, hconfig⟩ := hconfigs config List.mem_cons_self
    obtain ⟨hgrown, hnew, hold⟩ := getElem?_addStatement hconfig token
    rw [heapStep_first hb hl hconfig]
    refine ⟨⟨hlength, configs_of_write hold (fun _ _ => ⟨_, hgrown⟩) hconfigs, fun _ => ?_⟩, ?_⟩
    · exact ⟨config, stack, statements, memory.length, [token], rfl, hgrown, hnew, List.cons_ne_nil _ _⟩
    · refine keepsBlocks_of_write hold fun tokens block ho => ?_
      rw [hconfig] at ho
      cases ho
  · by_cases hn : last = .normal
    · -- another one: it is added to the last statement
      subst hn
      obtain ⟨config, stack, statements, statement, tokens, rfl, hconfig, hstatement, -⟩ := hnormal rfl
      have hold : ∀ (i : Address) o, i ≠ statement → memory[i]? = some o →
          (memory.set statement (.statement (tokens ++ [token]) none))[i]? = some o :=
        fun i o hi ho => by rw [List.getElem?_set_ne (Ne.symm hi), ho]
      have hnew : (memory.set statement (.statement (tokens ++ [token]) none))[statement]? =
          some (.statement (tokens ++ [token]) none) :=
        List.getElem?_set_self (lt_of_getElem? hstatement)
      have hne : config ≠ statement := by
        rintro rfl
        rw [hconfig] at hstatement
        cases hstatement
      rw [heapStep_word hb hconfig hstatement]
      refine ⟨⟨hlength, configs_of_statement hold hstatement hconfigs, fun _ => ?_⟩,
        keepsBlocks_of_statement hold hstatement⟩
      exact ⟨config, stack, statements, statement, tokens ++ [token], rfl, hold config _ hne hconfig,
        hnew, List.append_ne_nil_of_right_ne_nil _ (List.cons_ne_nil _ _)⟩
    · rw [heapStep, hb]
      dsimp only
      rw [if_neg (mt word_allowed_iff.mp (not_or.mpr ⟨hl, hn⟩))]
      exact safe_badTransition _ _

/-- The start of a block. -/
theorem safe_startBlock (hs : StackInv ⟨memory, stack, braces, last, contents⟩)
    (hb : trackBraces braces token = some (braces + 1)) :
    (heapStep ⟨memory, stack, braces, last, contents⟩ .startBlock token).Safe
      ⟨memory, stack, braces, last, contents⟩ := by
  obtain ⟨hlength, hconfigs, hnormal⟩ := hs
  by_cases hn : last = .normal
  · subst hn
    obtain ⟨config, stack, statements, statement, tokens, rfl, hconfig, hstatement, -⟩ := hnormal rfl
    obtain ⟨-, hnew, hold⟩ := getElem?_addBlock hstatement
    rw [heapStep_opening hb hconfig hstatement]
    refine ⟨⟨congrArg (· + 1) hlength, ?_, by simp⟩, keepsBlocks_of_statement hold hstatement⟩
    exact List.forall_mem_cons.mpr ⟨⟨_, hnew⟩, configs_of_statement hold hstatement hconfigs⟩
  · rw [heapStep, hb]
    dsimp only
    rw [if_pos hn]
    exact safe_badTransition _ _

/-- The end of a block: `braces_stack` is not empty, so there are two configs on the other. -/
theorem safe_endBlock (hs : StackInv ⟨memory, stack, braces, last, contents⟩)
    (hb : trackBraces braces token = bracesAfter .endBlock braces) :
    (heapStep ⟨memory, stack, braces, last, contents⟩ .endBlock token).Safe
      ⟨memory, stack, braces, last, contents⟩ := by
  obtain ⟨hlength, hconfigs, -⟩ := hs
  rcases braces with - | braces
  · rw [heapStep, hb]
    exact ⟨by simp, by simp⟩
  rcases stack with - | ⟨newest, - | ⟨config, stack⟩⟩
  · cases hlength
  · cases hlength
  by_cases hl : Boundary last ∧ last ≠ .start
  · obtain ⟨statements, hnewest⟩ := hconfigs newest List.mem_cons_self
    rw [heapStep_closing hb hl.1 hl.2 hnewest]
    exact ⟨⟨Nat.succ.inj hlength, (List.forall_mem_cons.mp hconfigs).2, by simp⟩, fun _ _ _ ho => ho⟩
  · rw [heapStep, hb]
    dsimp only [bracesAfter]
    rw [if_neg (Nat.succ_ne_zero braces)]
    dsimp only
    rw [if_pos (closing_refused_iff.mpr hl)]
    exact safe_badTransition _ _

end Turn

/-- **One turn of the loop is safe.** -/
theorem StackInv.safe {s : HeapState} (hs : StackInv s) {input token rest : Bytes}
    {tokenType : TokenType} (h : parseToken input = (tokenType, token, rest)) :
    (heapStep s tokenType token).Safe s := by
  have hb := trackBraces_parseToken h s.braces
  obtain ⟨memory, stack, braces, last, contents⟩ := s
  obtain ⟨hlength, hconfigs, hnormal⟩ := hs
  dsimp only at hb hlength hconfigs hnormal
  cases tokenType with
  | start =>
    rw [heapStep, hb]
    exact safe_badTransition _ _
  | error =>
    rw [heapStep, hb]
    exact ⟨by simp, by simp⟩
  | comment =>
    rw [heapStep, hb]
    exact ⟨⟨hlength, hconfigs, hnormal⟩, fun _ _ _ ho => ho⟩
  | statementEnd =>
    rw [heapStep, hb]
    dsimp only [bracesAfter]
    split
    · exact safe_badTransition _ _
    · exact ⟨⟨hlength, hconfigs, by simp⟩, fun _ _ _ ho => ho⟩
  | normal => exact safe_normal ⟨hlength, hconfigs, hnormal⟩ hb
  | startBlock => exact safe_startBlock ⟨hlength, hconfigs, hnormal⟩ hb
  | endBlock => exact safe_endBlock ⟨hlength, hconfigs, hnormal⟩ hb
  | eof =>
    rw [heapStep, hb]
    dsimp only [bracesAfter]
    split
    · exact safe_badTransition _ _
    · split
      · exact ⟨by simp, by simp⟩
      · next hone =>
        -- one config on its stack: no brace is open
        rw [if_neg (by omega)]
        exact ⟨by simp, by simp⟩

/-! ## Runs of the loop -/

/-- One turn of the loop, from one head to the next. -/
def Turn (x y : HeapState × Bytes) : Prop :=
  ∃ tokenType token, parseToken x.2 = (tokenType, token, y.2) ∧
    heapStep x.1 tokenType token = .next y.1

theorem StackInv.turn {x y : HeapState × Bytes} (hx : StackInv x.1) (h : Turn x y) :
    StackInv y.1 := by
  obtain ⟨tokenType, token, hp, hstep⟩ := h
  have hsafe := hx.safe hp
  rw [hstep] at hsafe
  exact hsafe.1

/-- **Every head of the loop**: for every stream, every config that `Parse` is called with and
whatever the parser's list holds, the invariant is there, and the turn is safe. -/
theorem safe_heads {memory : Memory} {config : Address}
    (hconfig : ∃ statements, memory[config]? = some (.config statements))
    (contents : List (List Address)) (input : Bytes) (x : HeapState × Bytes)
    (hx : Relation.ReflTransGen Turn (.enter memory config contents, input) x) :
    StackInv x.1 ∧ (heapStep x.1 (parseToken x.2).1 (parseToken x.2).2.1).Safe x.1 := by
  have hinv : StackInv x.1 := by
    induction hx with
    | refl => exact stackInv_enter hconfig contents
    | tail _ hturn ih => exact ih.turn hturn
  exact ⟨hinv, hinv.safe rfl⟩

/-- The theorem inside of a block. -/
theorem safe_heads_block : ∃ x : HeapState × Bytes, x.1.configStack.length = 2 ∧
    x.1.lastTokenType = .normal ∧ StackInv x.1 := by
  let a : HeapState × Bytes := (.enter [.config []] 0 [], str "a \x7b b; \x7d")
  let b : HeapState × Bytes := (⟨[.config [1], .statement [str "a"] none], [0], 0, .normal, []⟩,
    str " \x7b b; \x7d")
  let c : HeapState × Bytes := (⟨[.config [1], .statement [str "a"] (some 2), .config []], [2, 0], 1,
    .startBlock, []⟩, str " b; \x7d")
  let d : HeapState × Bytes := (⟨[.config [1], .statement [str "a"] (some 2), .config [3],
    .statement [str "b"] none], [2, 0], 1, .normal, []⟩, str "; \x7d")
  have hab : Turn a b := ⟨.normal, str "a", rfl, rfl⟩
  have hbc : Turn b c := ⟨.startBlock, str "\x7b", rfl, rfl⟩
  have hcd : Turn c d := ⟨.normal, str "b", rfl, rfl⟩
  have hhead : Relation.ReflTransGen Turn a d := ((Relation.ReflTransGen.single hab).tail hbc).tail hcd
  exact ⟨d, rfl, rfl, (safe_heads ⟨[], rfl⟩ [] _ d hhead).1⟩

/-- One turn of the loop. -/
theorem heapLoop_eq {s : HeapState} {input token rest : Bytes} {tokenType : TokenType}
    (hp : parseToken input = (tokenType, token, rest)) :
    heapLoop s input =
      match heapStep s tokenType token with
      | .fault => none
      | .exit e s' => some (e, s')
      | .next s' => heapLoop s' rest := by
  rw [heapLoop]
  split
  next hp' =>
  obtain ⟨rfl, hpair⟩ := Prod.mk.inj (hp.symm.trans hp')
  obtain ⟨rfl, rfl⟩ := Prod.mk.inj hpair
  split <;> next hs => simp only [hs]

theorem heapLoop_exit {s s' : HeapState} {input token rest : Bytes} {tokenType : TokenType} {e : Exit}
    (hp : parseToken input = (tokenType, token, rest))
    (hs : heapStep s tokenType token = .exit e s') : heapLoop s input = some (e, s') := by
  rw [heapLoop_eq hp, hs]

theorem heapLoop_next {s s' : HeapState} {input token rest : Bytes} {tokenType : TokenType}
    (hp : parseToken input = (tokenType, token, rest))
    (hs : heapStep s tokenType token = .next s') : heapLoop s input = heapLoop s' rest := by
  rw [heapLoop_eq hp, hs]

/-- **`Parse` returns**, and not by an exit that only unequal stacks lead to. -/
theorem StackInv.heapLoop_defined {s : HeapState} (hs : StackInv s) (input : Bytes) :
    ∃ e s', heapLoop s input = some (e, s') ∧ e ≠ .tooManyRight ∧ e ≠ .openBraces := by
  induction hn : input.length using Nat.strongRecOn generalizing s input with
  | _ n ih =>
    subst hn
    rcases hp : parseToken input with ⟨tokenType, token, rest⟩
    have hsafe := hs.safe hp
    rcases hstep : heapStep s tokenType token with s' | ⟨e, s'⟩ | -
    · rw [hstep] at hsafe
      obtain ⟨heof, herr⟩ := ne_of_heapStep_next hstep
      rw [heapLoop_next hp hstep]
      exact ih _ (length_parseToken_lt hp heof herr) hsafe.1 rest rfl
    · rw [hstep] at hsafe
      exact ⟨e, s', heapLoop_exit hp hstep, hsafe⟩
    · rw [hstep] at hsafe
      exact hsafe.elim

/-- `NginxConfigParser::Parse` of a new parser, with a new config. -/
def heapParse (input : Bytes) : Option (Exit × HeapState) := heapLoop (.enter [.config []] 0 []) input

theorem heapParse_defined (input : Bytes) :
    ∃ e s, heapParse input = some (e, s) ∧ e ≠ .tooManyRight ∧ e ≠ .openBraces :=
  (stackInv_enter ⟨[], rfl⟩ []).heapLoop_defined input

end NginxConfigParser

end LowKeyWebServer
