import LowKeyWebServer.ConfigParser

/-!
# The config blocks of a port

`port.cc`: `setConfigBlocks` parses the config file for the contents of its blocks, reads it a
second time token by token for the headers of its location blocks, and joins the two lists by
position. A loop that reads on at the end of the file reads empty tokens and never ends
(`none`), and so is an index out of range.
-/

namespace LowKeyWebServer

open NginxConfigParser

/-- A `config_block`: its `prefix`, its `handler_type` and its `content`. -/
structure ConfigBlock : Type where
  /-- `prefix` -/
  blockPrefix : Bytes
  /-- `handler_type` -/
  handlerType : Bytes
  /-- `content` -/
  content : NginxConfig

namespace NginxConfigParser

/-- A token takes at least one character. -/
theorem length_getToken_lt {input : Bytes} (h : input ≠ []) :
    (getToken input).2.length < input.length := by
  rcases input with - | ⟨c, input⟩
  · exact absurd rfl h
  · have hle : ∀ state value, (parseTokenFrom state value input).2.2.length < (c :: input).length :=
      fun state value => Nat.lt_succ_of_le (length_parseTokenFrom_le state value input)
    rw [getToken, parseToken, parseTokenFrom]
    repeat' split
    all_goals first | exact Nat.lt_succ_self _ | exact hle _ _

/-- A stream at its end stays there. -/
theorem getToken_nil : getToken [] = ([], []) := rfl

end NginxConfigParser

namespace Port

/-- The keyword of a location block. -/
def location : Bytes := str "location"

/-- `while (token != target) token = config_parser.getToken(input);`: the stream after it.
At the end of the stream the loop never ends: no target is empty. -/
def skipTo (target token input : Bytes) : Option Bytes :=
  if token = target then some input
  else if h : input = [] then none
  else
    have : (getToken input).2.length < input.length := length_getToken_lt h
    skipTo target (getToken input).1 (getToken input).2
  termination_by input.length

/-- The handler types whose block is skipped to its closing brace. -/
def skipsBlock (handlerType : Bytes) : Bool :=
  handlerType == str "EchoHandler" || handlerType == str "StatusHandler" ||
  handlerType == str "ErrorHandler" || handlerType == str "HealthHandler" ||
  handlerType == str "ProxyHandler" || handlerType == str "CacheHandler"

/-- The locals of the loop over the tokens, and `config_blocks`. -/
structure Scan : Type where
  /-- `token` -/
  token : Bytes
  /-- the stream after it -/
  input : Bytes
  /-- `config_blocks` -/
  configBlocks : List ConfigBlock

/-- The first `if` after the handler type is read: the block is skipped to its closing brace,
or the next token is read. -/
def readKnown (block : ConfigBlock) (s : Scan) : Option Scan :=
  if skipsBlock s.token then
    (skipTo (str "\x7d") s.token s.input).map fun input =>
      ⟨str "\x7d", input, s.configBlocks ++ [block]⟩
  else some ⟨(getToken s.input).1, (getToken s.input).2, s.configBlocks⟩

/-- The second `if`: after an opening brace the static handler's block is skipped to the first
semicolon. -/
def readStatic (block : ConfigBlock) (s : Scan) : Option Scan :=
  if s.token = str "\x7b" then
    (skipTo (str ";") (getToken s.input).1 (getToken s.input).2).map fun input =>
      ⟨str ";", input, s.configBlocks ++ [block]⟩
  else some s

/-- The body of `if (last_token == "location")`. -/
def readHeader (s : Scan) : Option Scan :=
  let handler := getToken s.input
  let block : ConfigBlock := ⟨s.token, handler.1, []⟩
  (readKnown block ⟨handler.1, handler.2, s.configBlocks⟩).bind (readStatic block)

/-- The loop reads on. -/
theorem skipTo_next {target token input : Bytes} (htoken : token ≠ target) (hinput : input ≠ []) :
    skipTo target token input = skipTo target (getToken input).1 (getToken input).2 := by
  rw [skipTo, if_neg htoken, dif_neg hinput]

/-- At the end of the stream it never ends. -/
theorem skipTo_nil {target token : Bytes} (htoken : token ≠ target) :
    skipTo target token [] = none := by
  rw [skipTo, if_neg htoken, dif_pos rfl]

theorem length_skipTo_le {target token input rest : Bytes} (h : skipTo target token input = some rest) :
    rest.length ≤ input.length := by
  fun_induction skipTo target token input with
  | case1 =>
    obtain rfl := Option.some.inj h
    exact Nat.le_refl _
  | case2 => cases h
  | case3 _ _ _ _ hlt ih => exact Nat.le_trans (ih h) (Nat.le_of_lt hlt)

theorem length_getToken_le (input : Bytes) : (getToken input).2.length ≤ input.length :=
  length_parseTokenFrom_le _ _ _

theorem length_readKnown_le {block : ConfigBlock} {s s' : Scan} (h : readKnown block s = some s') :
    s'.input.length ≤ s.input.length := by
  rw [readKnown] at h
  split at h
  · obtain ⟨input, hskip, rfl⟩ := Option.map_eq_some_iff.mp h
    exact length_skipTo_le hskip
  · obtain rfl := Option.some.inj h
    exact length_getToken_le _

theorem length_readStatic_le {block : ConfigBlock} {s s' : Scan} (h : readStatic block s = some s') :
    s'.input.length ≤ s.input.length := by
  rw [readStatic] at h
  split at h
  · obtain ⟨input, hskip, rfl⟩ := Option.map_eq_some_iff.mp h
    exact Nat.le_trans (length_skipTo_le hskip) (length_getToken_le _)
  · obtain rfl := Option.some.inj h
    exact Nat.le_refl _

/-- A header is read from the front of the stream. -/
theorem length_readHeader_le {s s' : Scan} (h : readHeader s = some s') :
    s'.input.length ≤ s.input.length := by
  obtain ⟨s₁, hknown, hstatic⟩ := Option.bind_eq_some_iff.mp h
  exact Nat.le_trans (length_readStatic_le hstatic)
    (Nat.le_trans (length_readKnown_le hknown) (length_getToken_le _))

/-- An empty token is one of a stream at its end. -/
theorem length_getToken_token (input : Bytes) :
    (getToken input).2.length + (if (getToken input).1 = [] then 0 else 1) < input.length + 1 := by
  by_cases h : input = []
  · rw [h, getToken_nil]
    decide
  · have hlt := length_getToken_lt h
    split <;> omega

/-- The loop over the tokens: `config_blocks` after it. -/
def scanHeaders (lastToken : Bytes) (s : Scan) : Option (List ConfigBlock) :=
  if htoken : s.token = [] then some s.configBlocks
  else
    match h : if lastToken = location then readHeader s else some s with
    | none => none
    | some s' =>
      have : (getToken s'.input).2.length + (if (getToken s'.input).1 = [] then 0 else 1) <
          s.input.length + (if s.token = [] then 0 else 1) := by
        have hle : s'.input.length ≤ s.input.length := by
          split at h
          · exact length_readHeader_le h
          · exact Nat.le_of_eq (congrArg (fun s : Scan => s.input.length) (Option.some.inj h).symm)
        have htoken' := length_getToken_token s'.input
        rw [if_neg htoken]
        omega
      scanHeaders s'.token ⟨(getToken s'.input).1, (getToken s'.input).2, s'.configBlocks⟩
  termination_by s.input.length + (if s.token = [] then 0 else 1)

/-- The last loop: `config_blocks[i].content = blocks[i]`. -/
def assignContents : List ConfigBlock → List NginxConfig → Option (List ConfigBlock)
  | configBlocks, [] => some configBlocks
  | [], _ :: _ => none
  | block :: configBlocks, content :: blocks =>
    (assignContents configBlocks blocks).map ({ block with content := content } :: ·)

/-- `port::setConfigBlocks` of a new port: its `config_blocks` after it. What `Parse` returns
is not looked at. -/
def setConfigBlocks (file : Bytes) : Option (List ConfigBlock) := do
  let (_, configParser) := parse file
  let (token, input) := getToken file
  let configBlocks ← scanHeaders [] ⟨token, input, []⟩
  assignContents configBlocks configParser.configBlocksContent

end Port

end LowKeyWebServer
