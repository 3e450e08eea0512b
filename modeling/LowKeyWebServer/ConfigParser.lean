import LowKeyWebServer.Bytes

/-!
# The config parser

`config_parser.cc`: the tokenizer `ParseToken`, the token automaton `Parse` with its two
stacks, and `ToString`. A stream is the bytes still to come. The parser's stack of pointers
into the tree is the block under construction and the blocks around it: a block's contents
are put into the last statement of the block below when it is left.
-/

namespace LowKeyWebServer

/-! ## The tree -/

/-- A `NginxConfigStatement`: its `tokens_` and its `child_block_`. -/
inductive NginxConfigStatement : Type where
  | mk (tokens : List Bytes) (childBlock : Option (List NginxConfigStatement))

/-- A `NginxConfig`: its `statements_`. -/
abbrev NginxConfig : Type := List NginxConfigStatement

/-- `tokens_`. -/
def NginxConfigStatement.tokens : NginxConfigStatement → List Bytes
  | .mk tokens _ => tokens

/-- `child_block_`. -/
def NginxConfigStatement.childBlock : NginxConfigStatement → Option NginxConfig
  | .mk _ childBlock => childBlock

/-! ## ToString -/

/-- Two blanks for each level. -/
def indent (depth : Nat) : Bytes := (List.replicate depth (str "  ")).flatten

/-- The tokens of a statement, with a blank between any two. -/
def joinTokens : List Bytes → Bytes
  | [] => []
  | [w] => w
  | w :: ws => w ++ str " " ++ joinTokens ws

mutual

/-- `NginxConfigStatement::ToString`. -/
def NginxConfigStatement.toStr (depth : Nat) : NginxConfigStatement → Bytes
  | .mk tokens none => indent depth ++ joinTokens tokens ++ str ";" ++ str "\n"
  | .mk tokens (some block) =>
    indent depth ++ joinTokens tokens ++ str " \x7b\n" ++ configToStr (depth + 1) block ++
      indent depth ++ str "\x7d" ++ str "\n"

/-- `NginxConfig::ToString`. -/
def configToStr (depth : Nat) : List NginxConfigStatement → Bytes
  | [] => []
  | s :: statements => s.toStr depth ++ configToStr depth statements

end

namespace NginxConfigParser

/-! ## Tokens -/

/-- `NginxConfigParser::TokenType`. -/
inductive TokenType : Type where
  | start | normal | startBlock | endBlock | comment | statementEnd | eof | error
  deriving DecidableEq

/-- `NginxConfigParser::TokenParserState`. -/
inductive TokenParserState : Type where
  | initialWhitespace | singleQuote | doubleQuote | comment | normal
  deriving DecidableEq

/-- A character that is skipped before a token. -/
def isBlank (c : Byte) : Bool := c == ' ' || c == '\t' || c == '\n' || c == '\r'

/-- A character that ends a normal token; it is put back. A carriage return does not. -/
def endsNormal (c : Byte) : Bool :=
  c == ' ' || c == '\t' || c == '\n' || c == ';' || c == '\x7b' || c == '\x7d'

/-- The loop of `ParseToken`: the type, the value, and the stream after the token. -/
def parseTokenFrom (state : TokenParserState) (value : Bytes) : Bytes → TokenType × Bytes × Bytes
  | [] =>
    if state = .singleQuote ∨ state = .doubleQuote then (.error, value, []) else (.eof, value, [])
  | c :: input =>
    match state with
    | .initialWhitespace =>
      if c = '\x7b' then (.startBlock, [c], input)
      else if c = '\x7d' then (.endBlock, [c], input)
      else if c = '#' then parseTokenFrom .comment [c] input
      else if c = '"' then parseTokenFrom .doubleQuote [c] input
      else if c = '\'' then parseTokenFrom .singleQuote [c] input
      else if c = ';' then (.statementEnd, [c], input)
      else if isBlank c then parseTokenFrom .initialWhitespace value input
      else parseTokenFrom .normal (value ++ [c]) input
    | .singleQuote =>
      if c = '\'' then (.normal, value ++ [c], input)
      else parseTokenFrom .singleQuote (value ++ [c]) input
    | .doubleQuote =>
      if c = '"' then (.normal, value ++ [c], input)
      else parseTokenFrom .doubleQuote (value ++ [c]) input
    | .comment =>
      if c = '\n' ∨ c = '\r' then (.comment, value, input)
      else parseTokenFrom .comment (value ++ [c]) input
    | .normal =>
      if endsNormal c then (.normal, value, c :: input)
      else parseTokenFrom .normal (value ++ [c]) input

/-- `NginxConfigParser::ParseToken`. -/
def parseToken (input : Bytes) : TokenType × Bytes × Bytes :=
  parseTokenFrom .initialWhitespace [] input

/-- `NginxConfigParser::getToken`: the value, and the stream after it. -/
def getToken (input : Bytes) : Bytes × Bytes := (parseToken input).2

/-! ## Parse -/

/-- The locals of `Parse`, and the parser's list of closed blocks. -/
structure ParserState : Type where
  /-- `config_stack.top()` -/
  top : NginxConfig
  /-- the rest of `config_stack`, from the top -/
  below : List NginxConfig
  /-- the height of `braces_stack` -/
  braces : Nat
  /-- `last_token_type` -/
  lastTokenType : TokenType
  /-- `config_blocks_content` -/
  configBlocksContent : List NginxConfig

namespace ParserState

/-- At the start of `Parse`, with an empty config. -/
def initial : ParserState := ⟨[], [], 0, .start, []⟩

end ParserState

/-- `statements_.back()` is changed; it is never called on an empty vector. -/
def modifyLast (f : NginxConfigStatement → NginxConfigStatement) : NginxConfig → NginxConfig
  | [] => []
  | [s] => [f s]
  | s :: statements => s :: modifyLast f statements

/-- `tokens_.push_back(token)`. -/
def pushToken (token : Bytes) : NginxConfigStatement → NginxConfigStatement
  | .mk tokens childBlock => .mk (tokens ++ [token]) childBlock

/-- `child_block_` is set. -/
def setBlock (block : NginxConfig) : NginxConfigStatement → NginxConfigStatement
  | .mk tokens _ => .mk tokens (some block)

/-- What a token does: the loop goes on, or `Parse` returns. -/
inductive Control : Type where
  /-- the next token -/
  | next (s : ParserState)
  /-- `Parse` returns -/
  | stop (ret : Bool) (s : ParserState)

/-- `braces_stack` after a token: pushed, popped, or as it was; `none` is a `}` on an
empty stack. -/
def trackBraces (braces : Nat) (token : Bytes) : Option Nat :=
  if token.head? = some ('\x7b' : Byte) then some (braces + 1)
  else if token.head? = some ('\x7d' : Byte) then if braces = 0 then none else some (braces - 1)
  else some braces

/-- The body of the loop of `Parse`. -/
def parseStep (s : ParserState) (tokenType : TokenType) (token : Bytes) : Control :=
  match trackBraces s.braces token with
  | none => .stop false s
  | some braces =>
    let s := { s with braces := braces }
    match tokenType with
    | .error => .stop false s
    -- comments are skipped
    | .comment => .next s
    | .start => .stop false s
    | .normal =>
      if s.lastTokenType = .start ∨ s.lastTokenType = .statementEnd ∨
          s.lastTokenType = .startBlock ∨ s.lastTokenType = .endBlock ∨
          s.lastTokenType = .normal then
        let top := if s.lastTokenType ≠ .normal then s.top ++ [.mk [] none] else s.top
        .next { s with top := modifyLast (pushToken token) top, lastTokenType := .normal }
      else .stop false s
    | .statementEnd =>
      if s.lastTokenType ≠ .normal then .stop false s
      else .next { s with lastTokenType := .statementEnd }
    | .startBlock =>
      if s.lastTokenType ≠ .normal then .stop false s
      else .next { s with top := [], below := modifyLast (setBlock []) s.top :: s.below,
                          lastTokenType := .startBlock }
    | .endBlock =>
      if s.lastTokenType ≠ .statementEnd ∧ s.lastTokenType ≠ .endBlock ∧
          s.lastTokenType ≠ .startBlock then .stop false s
      else
        match s.below with
        -- too many right braces
        | [] => .stop false s
        | parent :: below =>
          .next { s with top := modifyLast (setBlock s.top) parent, below := below,
                         lastTokenType := .endBlock,
                         configBlocksContent := s.configBlocksContent ++ [s.top] }
    | .eof =>
      if s.lastTokenType ≠ .statementEnd ∧ s.lastTokenType ≠ .endBlock ∧
          s.lastTokenType ≠ .start then .stop false s
      -- too many left braces
      else if s.below ≠ [] then .stop false s
      else if s.braces ≠ 0 then .stop false s
      else .stop true s

/-- A token is read from the front of the stream. -/
theorem length_parseTokenFrom_le (state : TokenParserState) (value input : Bytes) :
    (parseTokenFrom state value input).2.2.length ≤ input.length := by
  induction input generalizing state value with
  | nil =>
    rw [parseTokenFrom]
    split <;> exact Nat.le_refl _
  | cons c input ih =>
    have ih' : ∀ state value, (parseTokenFrom state value input).2.2.length ≤ (c :: input).length :=
      fun state value => Nat.le_succ_of_le (ih state value)
    cases state <;> rw [parseTokenFrom]
    case initialWhitespace =>
      repeat' split
      all_goals first | exact Nat.le_succ _ | exact ih' _ _
    all_goals
      split
      · first | exact Nat.le_succ _ | exact Nat.le_refl _
      · exact ih' _ _

/-- A token that does not end the stream is not empty. -/
theorem length_parseToken_lt {input value rest : Bytes} {tokenType : TokenType}
    (h : parseToken input = (tokenType, value, rest)) (heof : tokenType ≠ .eof)
    (herr : tokenType ≠ .error) : rest.length < input.length := by
  rw [parseToken] at h
  generalize ([] : Bytes) = acc at h
  induction input generalizing acc with
  | nil =>
    rw [parseTokenFrom, if_neg (by decide)] at h
    exact absurd (congrArg Prod.fst h).symm heof
  | cons c input ih =>
    have hle : ∀ state acc, parseTokenFrom state acc input = (tokenType, value, rest) →
        rest.length < (c :: input).length := by
      intro state acc hp
      have hlen := length_parseTokenFrom_le state acc input
      rw [hp] at hlen
      exact Nat.lt_succ_of_le hlen
    rw [parseTokenFrom] at h
    repeat' split at h
    all_goals first
      | exact hle _ _ h
      | cases h; exact Nat.lt_succ_self _

/-- The loop goes on after a token that does not end the stream. -/
theorem ne_of_parseStep_next {s s' : ParserState} {tokenType : TokenType} {token : Bytes}
    (h : parseStep s tokenType token = .next s') : tokenType ≠ .eof ∧ tokenType ≠ .error := by
  rw [parseStep] at h
  split at h
  · cases h
  · cases tokenType <;> dsimp only at h
    case eof =>
      repeat' split at h
      all_goals cases h
    case error => cases h
    all_goals exact ⟨by decide, by decide⟩

/-- The loop of `Parse`. -/
def parseLoop (s : ParserState) (input : Bytes) : Bool × ParserState :=
  match h : parseToken input with
  | (tokenType, token, rest) =>
    match hs : parseStep s tokenType token with
    | .stop ret s' => (ret, s')
    | .next s' =>
      have : rest.length < input.length :=
        length_parseToken_lt h (ne_of_parseStep_next hs).1 (ne_of_parseStep_next hs).2
      parseLoop s' rest
  termination_by input.length

/-- `NginxConfigParser::Parse` with an empty config: what it returns, and the parser's
state then. -/
def parse (input : Bytes) : Bool × ParserState := parseLoop .initial input

/-- The config as `Parse` leaves it: the open blocks are part of it. -/
def ParserState.config (s : ParserState) : NginxConfig :=
  s.below.foldl (fun block parent => modifyLast (setBlock block) parent) s.top

end NginxConfigParser

end LowKeyWebServer
