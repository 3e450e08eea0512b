import LowKeyWebServer.Lib.Program
import LowKeyWebServer.Port
import LowKeyWebServer.ConfigGrammar

/-!
# The token loops of a port

`port.cc` reads its config file three times with the same loop over the tokens:
`checkPortNum` looks for the word `port`, `checkFilePath` and `setConfigBlocks` for `location`.
Behind `location` there are loops of their own, which look for one token and not for the end of
the file, where `getToken` returns the empty string forever.

The loops are programs over their locals, statement by statement. Seen through the tokens left
(`Locals.view`) they follow relations on lists of tokens, and `Scanned` says which files
a loop gets through.
-/

namespace LowKeyWebServer

open NginxConfigParser

namespace NginxConfigParser

theorem parseTokenFrom_value_ne_nil (state : TokenParserState) {value : Bytes} (h : value ≠ [])
    (input : Bytes) : (parseTokenFrom state value input).2.1 ≠ [] := by
  induction input generalizing state value with
  | nil =>
    rw [parseTokenFrom]
    split <;> exact h
  | cons c input ih =>
    have hpush : value ++ [c] ≠ [] := List.append_ne_nil_of_right_ne_nil _ (List.cons_ne_nil _ _)
    cases state <;> rw [parseTokenFrom] <;> repeat' split
    all_goals first
      | exact List.cons_ne_nil _ _
      | exact hpush
      | exact h
      | exact ih _ (List.cons_ne_nil _ _)
      | exact ih _ hpush
      | exact ih _ h

/-- Only the end of the stream gives an empty token. -/
theorem getToken_rest_nil {input : Bytes} (h : (getToken input).1 = []) : (getToken input).2 = [] := by
  have hne : ∀ state c rest, (parseTokenFrom state [c] rest).2.1 ≠ [] := fun state c rest =>
    parseTokenFrom_value_ne_nil state (List.cons_ne_nil c []) rest
  rw [getToken, parseToken] at h ⊢
  induction input with
  | nil => rfl
  | cons c input ih =>
    rw [parseTokenFrom] at h ⊢
    repeat' split at h
    all_goals first | exact absurd h (List.cons_ne_nil _ _) | exact absurd h (hne _ _ _) | skip
    simp only [*, if_false, if_true]

/-- The token just read and the stream after it. An empty token is one of a stream at its end. -/
structure Cursor : Type where
  /-- `token` -/
  token : Bytes
  /-- the stream after it -/
  input : Bytes
  /-- the end of the stream is known by the empty token -/
  ended : token = [] → input = []

namespace Cursor

/-- `getToken` on a stream. -/
def read (input : Bytes) : Cursor := ⟨(getToken input).1, (getToken input).2, getToken_rest_nil⟩

/-- `token = config_parser.getToken(input);` -/
def next (c : Cursor) : Cursor := read c.input

end Cursor

/-- The tokens of a stream, comments included, as `getToken` returns them before the first
empty one. -/
def tokens (input : Bytes) : List Bytes :=
  if h : (getToken input).1 = [] then []
  else
    have : (getToken input).2.length < input.length :=
      length_getToken_lt fun hnil => h (by rw [hnil, getToken_nil])
    (getToken input).1 :: tokens (getToken input).2
  termination_by input.length

theorem tokens_eq (input : Bytes) : tokens input =
    if (getToken input).1 = [] then [] else (getToken input).1 :: tokens (getToken input).2 := by
  rw [tokens]
  split <;> rfl

theorem tokens_nil : tokens [] = [] := by
  rw [tokens_eq, getToken_nil, if_pos rfl]

namespace Cursor

/-- The tokens from the one just read on. -/
def left (c : Cursor) : List Bytes := if c.token = [] then [] else c.token :: tokens c.input

theorem left_read (input : Bytes) : (read input).left = tokens input :=
  (tokens_eq input).symm

theorem left_next (c : Cursor) : c.next.left = c.left.tail := by
  rw [next, left_read, left]
  split
  · next h => rw [c.ended h, tokens_nil, List.tail_nil]
  · rfl

theorem token_eq (c : Cursor) : c.token = c.left.headD [] := by
  rw [left]
  split
  · next h => exact h
  · rfl

theorem token_eq_iff (c : Cursor) {t : Bytes} (ht : t ≠ []) : c.token = t ↔ c.left.head? = some t := by
  rw [left]
  split
  · next h => simp [h, ht.symm]
  · simp

theorem left_eq_nil (c : Cursor) : c.left = [] ↔ c.token = [] := by
  rw [left]
  split
  · next h => simp [h]
  · next h => simp [h]

end Cursor

end NginxConfigParser

namespace Port

open Program

/-! ## The loops -/

/-- `{` -/
def opening : Bytes := str "\x7b"

/-- `}` -/
def closing : Bytes := str "\x7d"

/-- `;` -/
def semicolon : Bytes := str ";"

/-- The locals of a loop over the tokens, and what it gathers. -/
structure Locals (α : Type) : Type where
  /-- `last_token` -/
  lastToken : Bytes
  /-- `token`, and the stream -/
  cursor : Cursor
  /-- the queue, or the blocks -/
  gathered : α

variable {α : Type}

namespace Locals

/-- Before the loop: the first token is read. -/
def start (file : Bytes) (gathered : α) : Locals α := ⟨[], .read file, gathered⟩

/-- `token` -/
def token (s : Locals α) : Bytes := s.cursor.token

/-- `last_token`, and the tokens left. -/
def view (s : Locals α) : Bytes × List Bytes := (s.lastToken, s.cursor.left)

end Locals

/-- `token = config_parser.getToken(input);` -/
def readToken : Program (Locals α) := .assign fun s => { s with cursor := s.cursor.next }

/-- `last_token = token;` -/
def keepToken : Program (Locals α) := .assign fun s => { s with lastToken := s.token }

/-- A statement about what is gathered, given the token. -/
def gather (f : Bytes → α → α) : Program (Locals α) :=
  .assign fun s => { s with gathered := f s.token s.gathered }

/-- `while (token.length() > 0)`: `item` is what is done where `last_token` is the keyword. -/
def tokenLoop (keyword : Bytes) (item : Program (Locals α)) : Program (Locals α) :=
  .loop (fun s => s.token.length > 0)
    (.seq (.ite (fun s => s.lastToken == keyword) item .skip)
      (.seq keepToken readToken))

/-- `while (token != target)` -/
def untilToken (target : Bytes) (body : Program (Locals α)) : Program (Locals α) :=
  .loop (fun s => s.token != target) body

/-! ### `checkPortNum` -/

/-- `port_queue.push(token);`, `filePath_Queue.push(token);` -/
def push : Program (Locals (List Bytes)) := gather fun token queue => queue ++ [token]

/-- The loop of `checkPortNum`. -/
def portLoop : Program (Locals (List Bytes)) := tokenLoop (str "port") push

/-- `port::isNumeric`. -/
def isNumeric (portNum : Bytes) : Bool := portNum.all isDigit

/-- `port::isValid`. -/
def isValid (portNum : Int) : Bool := !(portNum < 1 || portNum > 65535)

/-- What `checkPortNum` returns, and the number it sets; `none` is what `std::stoi` throws. -/
def firstPort : List Bytes → Option (Bool × Option Int)
  | [] => some (false, none)
  | first :: _ =>
    if !isNumeric first then some (false, none)
    else (stoi first).map fun n => if isValid n then (true, some n) else (false, none)

/-- `port::checkPortNum`, with fuel for its loop. -/
def checkPortNum (fuel : Nat) (file : Bytes) : Option (Option (Bool × Option Int)) :=
  (portLoop.run fuel (.start file [])).map fun s => firstPort s.gathered

/-! ### `checkFilePath` -/

/-- The body of `if (last_token == "location")` in `checkFilePath`. -/
def pathItem : Program (Locals (List Bytes)) :=
  .seq push <| .seq readToken <|
    .ite (fun s => s.token == opening)
      (.seq readToken (untilToken (semicolon) (.seq push readToken)))
      .skip

/-- The loop of `checkFilePath`. -/
def pathLoop : Program (Locals (List Bytes)) := tokenLoop location pathItem

/-- The last loop: the first and the third of each three tokens go to `fileMap`. -/
def fileMap : List Bytes → List Bytes
  | firstPath :: _ :: locationPath :: queue => firstPath :: locationPath :: fileMap queue
  | _ => []

/-- What `checkFilePath` returns, and what it appends to `fileMap`. -/
def filePaths (queue : List Bytes) : Bool × List Bytes :=
  if queue.isEmpty || queue.length % 3 != 0 then (false, []) else (true, fileMap queue)

/-- `port::checkFilePath`, with fuel for its loops. -/
def checkFilePath (fuel : Nat) (file : Bytes) : Option (Bool × List Bytes) :=
  (pathLoop.run fuel (.start file [])).map fun s => filePaths s.gathered

/-! ### `setConfigBlocks` -/

/-- What the loop of `setConfigBlocks` fills: `block` and `config_blocks`. -/
structure Headers : Type where
  /-- `block` -/
  block : ConfigBlock
  /-- `config_blocks` -/
  configBlocks : List ConfigBlock

/-- `block.prefix = token;` -/
def setPrefix : Program (Locals Headers) :=
  gather fun token h => { h with block := ⟨token, [], []⟩ }

/-- `block.handler_type = token;` -/
def setHandlerType : Program (Locals Headers) :=
  gather fun token h => { h with block := { h.block with handlerType := token } }

/-- `config_blocks.push_back(block);` -/
def pushBlock : Program (Locals Headers) :=
  gather fun _ h => { h with configBlocks := h.configBlocks ++ [h.block] }

/-- The body of `if (last_token == "location")` in `setConfigBlocks`. -/
def headerItem : Program (Locals Headers) :=
  .seq setPrefix <| .seq readToken <| .seq setHandlerType <|
    .seq
      (.ite (fun s => skipsBlock s.token)
        (.seq pushBlock (untilToken (closing) readToken))
        readToken)
      (.ite (fun s => s.token == opening)
        (.seq pushBlock (.seq readToken (untilToken (semicolon) readToken)))
        .skip)

/-- The loop of `setConfigBlocks`. -/
def headerLoop : Program (Locals Headers) := tokenLoop location headerItem

/-- `port::setConfigBlocks` up to the end of its loop over the tokens, with fuel for it. -/
def scanBlocks (fuel : Nat) (file : Bytes) : Option (List ConfigBlock) :=
  (headerLoop.run fuel (.start file ⟨⟨[], [], []⟩, []⟩)).map fun s => s.gathered.configBlocks

/-! ## What the loops do to the tokens -/

section Follows

variable {β : Type}

theorem follows_readToken :
    Follows (Locals.view (α := α)) readToken fun a b => b = (a.1, a.2.tail) :=
  follows_assign fun s => Prod.ext rfl s.cursor.left_next

theorem follows_keepToken :
    Follows (Locals.view (α := α)) keepToken fun a b => b = (a.2.headD [], a.2) :=
  follows_assign fun s => Prod.ext s.cursor.token_eq rfl

theorem follows_gather (f : Bytes → α → α) : Follows Locals.view (gather f) fun a b => b = a :=
  follows_assign fun _ => rfl

/-- The tokens from the first `target` on. -/
def FromFirst (target : Bytes) (ts rest : List Bytes) : Prop :=
  ∃ body after, target ∉ body ∧ ts = body ++ target :: after ∧ rest = target :: after

theorem fromFirst_self {target : Bytes} {ts rest : List Bytes} :
    FromFirst target (target :: ts) rest ↔ rest = target :: ts := by
  constructor
  · rintro ⟨body, after, hbody, hts, rfl⟩
    rcases body with - | ⟨t, body⟩
    · exact hts.symm
    · rw [(List.cons.inj hts).1] at hbody
      exact absurd List.mem_cons_self hbody
  · rintro rfl
    exact ⟨[], ts, List.not_mem_nil, rfl, rfl⟩

theorem fromFirst_cons {target t : Bytes} (ht : t ≠ target) {ts rest : List Bytes} :
    FromFirst target (t :: ts) rest ↔ FromFirst target ts rest := by
  constructor
  · rintro ⟨body, after, hbody, hts, rfl⟩
    rcases body with - | ⟨t', body⟩
    · exact absurd (List.cons.inj hts).1 ht
    · exact ⟨body, after, fun h => hbody (List.mem_cons_of_mem _ h), (List.cons.inj hts).2, rfl⟩
  · rintro ⟨body, after, hbody, rfl, rfl⟩
    refine ⟨t :: body, after, ?_, rfl, rfl⟩
    rw [List.mem_cons, not_or]
    exact ⟨ht.symm, hbody⟩

theorem not_fromFirst_nil {target : Bytes} {rest : List Bytes} : ¬ FromFirst target [] rest := by
  rintro ⟨body, after, -, hts, -⟩
  exact List.append_ne_nil_of_right_ne_nil _ (List.cons_ne_nil _ _) hts.symm

/-- **The inner loops** get to the first token they look for, and nowhere without one. -/
theorem follows_untilToken {target : Bytes} (htarget : target ≠ []) {body : Program (Locals α)}
    (hbody : Follows Locals.view body fun a b => b = (a.1, a.2.tail)) :
    Follows Locals.view (untilToken target body)
      fun a b => b.1 = a.1 ∧ FromFirst target a.2 b.2 := by
  have hcond : ∀ s : Locals α, (s.token != target) = true ↔ s.view.2.head? ≠ some target := by
    intro s
    rw [bne_iff_ne]
    exact not_congr (s.cursor.token_eq_iff htarget)
  refine (hbody.loop (C := fun a => a.2.head? ≠ some target) hcond).congr fun a b => ?_
  constructor
  · intro h
    induction h with
    | @done a hC =>
      obtain ⟨ts, hts⟩ := List.head?_eq_some_iff.mp (not_not.mp hC)
      rw [hts]
      exact ⟨rfl, fromFirst_self.mpr rfl⟩
    | @next a m b hC hm _ ih =>
      subst hm
      refine ⟨ih.1, ?_⟩
      rcases hts : a.2 with - | ⟨t, ts⟩
      · rw [hts] at ih
        exact absurd ih.2 not_fromFirst_nil
      · rw [hts] at ih hC
        exact (fromFirst_cons fun ht => hC (congrArg some ht)).mpr ih.2
  · obtain ⟨last, ts⟩ := a
    obtain ⟨last', rest⟩ := b
    rintro ⟨rfl, h⟩
    -- along the tokens before the first `target`
    induction ts with
    | nil => exact absurd h not_fromFirst_nil
    | cons t ts ih =>
      by_cases ht : t = target
      · subst ht
        obtain rfl := fromFirst_self.mp h
        exact .done fun hC => hC rfl
      · have hne : (t :: ts).head? ≠ some target := fun hs => ht (Option.some.inj hs)
        exact .next hne rfl (ih ((fromFirst_cons ht).mp h))

end Follows

/-- The tokens of a file that the loop gets through. `item` relates the tokens behind a keyword
to what is left of them, from the token it stops at on. -/
inductive Scanned (keyword : Bytes) (item : List Bytes → List Bytes → Prop) : List Bytes → Prop
  /-- the end of the file -/
  | nil : Scanned keyword item []
  /-- a token that is not the keyword -/
  | pass {t : Bytes} {ts : List Bytes} : t ≠ keyword → Scanned keyword item ts →
      Scanned keyword item (t :: ts)
  /-- the keyword -/
  | item {ts rest : List Bytes} : item ts rest → Scanned keyword item rest →
      Scanned keyword item (keyword :: ts)

section Scanned

variable {keyword last : Bytes} {Item : List Bytes → List Bytes → Prop} {ts : List Bytes}

/-- A round of the outer loop, on the last token and the tokens left. -/
def Round (keyword : Bytes) (Item : List Bytes → List Bytes → Prop) (a b : Bytes × List Bytes) :
    Prop :=
  ∃ rest, (a.1 = keyword ∧ Item a.2 rest ∨ ¬ a.1 = keyword ∧ rest = a.2) ∧
    b = (rest.headD [], rest.tail)

theorem Scanned.headD (h : Scanned keyword Item (ts.headD [] :: ts.tail)) :
    Scanned keyword Item ts := by
  rcases ts with - | ⟨t, ts⟩
  · exact .nil
  · exact h

theorem scanned_of_while (hnil : Item [] []) {a b : Bytes × List Bytes}
    (h : While (fun a => a.2 ≠ []) (Round keyword Item) a b) :
    Scanned keyword Item (a.1 :: a.2) := by
  induction h with
  | @done a hC =>
    rw [not_not.mp hC]
    by_cases ha : a.1 = keyword
    · rw [ha]
      exact .item hnil .nil
    · exact .pass ha .nil
  | next _ hround _ ih =>
    obtain ⟨rest, ⟨ha, hI⟩ | ⟨ha, rfl⟩, rfl⟩ := hround
    · rw [ha]
      exact .item hI ih.headD
    · exact .pass ha ih.headD

theorem while_of_scanned (h : Scanned keyword Item (last :: ts)) :
    ∃ b, While (fun a => a.2 ≠ []) (Round keyword Item) (last, ts) b := by
  generalize hl : last :: ts = l at h
  have hend : ∀ last, While (fun a => a.2 ≠ []) (Round keyword Item) (last, []) (last, []) :=
    fun last => .done fun hC => hC rfl
  induction h generalizing last ts with
  | nil => cases hl
  | @pass t ts' ht _ ih =>
    obtain ⟨rfl, rfl⟩ := List.cons.inj hl
    rcases ts with - | ⟨t', ts⟩
    · exact ⟨_, hend last⟩
    · obtain ⟨b, hb⟩ := @ih t' ts rfl
      exact ⟨b, .next (List.cons_ne_nil _ _) ⟨_, .inr ⟨ht, rfl⟩, rfl⟩ hb⟩
  | @item ts' rest hI _ ih =>
    obtain ⟨rfl, rfl⟩ := List.cons.inj hl
    rcases ts with - | ⟨t', ts⟩
    · exact ⟨_, hend last⟩
    have hround : Round last Item (last, t' :: ts) (rest.headD [], rest.tail) :=
      ⟨rest, .inl ⟨rfl, hI⟩, rfl⟩
    rcases rest with - | ⟨r, rest⟩
    · exact ⟨_, .next (List.cons_ne_nil _ _) hround (hend _)⟩
    · obtain ⟨b, hb⟩ := @ih r rest rfl
      exact ⟨b, .next (List.cons_ne_nil _ _) hround hb⟩

/-- **The outer loop** ends where the tokens can be scanned. -/
theorem tokenLoop_ends_iff {item : Program (Locals α)} (hnil : Item [] [])
    (hitem : Follows Locals.view item fun a b => b.1 = a.1 ∧ Item a.2 b.2) (s : Locals α) :
    (∃ t, (tokenLoop keyword item).Ends s t) ↔
      Scanned keyword Item (s.lastToken :: s.cursor.left) := by
  have hcond : ∀ s : Locals α, decide (s.token.length > 0) = true ↔ s.view.2 ≠ [] := by
    intro s
    rw [decide_eq_true_iff, gt_iff_lt, List.length_pos_iff]
    exact not_congr s.cursor.left_eq_nil.symm
  have hkeyword : ∀ s : Locals α, (s.lastToken == keyword) = true ↔ s.view.1 = keyword :=
    fun s => beq_iff_eq
  have hround : Follows Locals.view
      (.seq (.ite (fun s => s.lastToken == keyword) item .skip) (.seq keepToken readToken))
      (Round keyword Item) := by
    refine ((hitem.ite (C := fun a => a.1 = keyword) hkeyword follows_skip).seq
      (follows_keepToken.seq follows_readToken)).congr fun a b => ?_
    constructor
    · rintro ⟨m, ⟨ha, -, hI⟩ | ⟨ha, rfl⟩, -, rfl, rfl⟩
      · exact ⟨m.2, .inl ⟨ha, hI⟩, rfl⟩
      · exact ⟨_, .inr ⟨ha, rfl⟩, rfl⟩
    · rintro ⟨rest, ⟨ha, hI⟩ | ⟨ha, rfl⟩, rfl⟩
      · exact ⟨(a.1, rest), .inl ⟨ha, rfl, hI⟩, _, rfl, rfl⟩
      · exact ⟨a, .inr ⟨ha, rfl⟩, _, rfl, rfl⟩
  exact ((hround.loop (C := fun a => a.2 ≠ []) hcond).ends_iff (s := s)).trans
    ⟨fun ⟨_, h⟩ => scanned_of_while hnil h, while_of_scanned⟩

end Scanned

end Port

end LowKeyWebServer
