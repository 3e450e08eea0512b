import LowKeyWebServer.ConfigParserCorrect
import LowKeyWebServer.NumberText
import LowKeyWebServer.ScanTermination

/-!
# The port of a config

`checkPortNum` does not look at the parsed config: it takes the token behind the first word `port`
of the file, comments included. `agreesWithTree_iff` says when the port that it sets is that of
the first statement `port` in the tree: where the first word `port` begins a statement (`FirstBegins`)
it is an equivalence, with a condition on the tokens behind that word (`PlainPort`).
-/

namespace LowKeyWebServer

open NginxConfigParser

/-! ## The port in the tree -/

mutual

/-- A statement and the statements in its block, in the order of the document. -/
def NginxConfigStatement.inOrder : NginxConfigStatement → List NginxConfigStatement
  | .mk tokens none => [.mk tokens none]
  | .mk tokens (some block) => .mk tokens (some block) :: configInOrder block

/-- The statements of a config, in the order of the document. -/
def configInOrder : List NginxConfigStatement → List NginxConfigStatement
  | [] => []
  | s :: statements => s.inOrder ++ configInOrder statements

end

namespace Port

/-- The keyword of the port's statement. -/
def port : Bytes := str "port"

/-- The number of a port, as digits. -/
def portNumber (text : Bytes) : Option Nat :=
  if text ≠ [] ∧ (∀ c ∈ text, isDigit c = true) ∧ 1 ≤ decimal text ∧ decimal text ≤ 65535 then
    some (decimal text)
  else none

/-- The first statement of a config that begins with `port`. -/
def portStatement (cfg : NginxConfig) : Option NginxConfigStatement :=
  (configInOrder cfg).find? fun s => s.tokens.head? == some port

/-- The second token of that statement. -/
def portText (cfg : NginxConfig) : Option Bytes := (portStatement cfg).bind fun s => s.tokens[1]?

/-- What `checkPortNum` is to return, and the number it is to set. -/
def portSetting : Option Nat → Bool × Option Int
  | some n => (true, some n)
  | none => (false, none)

/-- `checkPortNum` returns, and it finds the port that the config has. -/
def AgreesWithTree (file : Bytes) : Prop :=
  ∃ fuel, checkPortNum fuel file =
    some (some (portSetting ((portText (parse file).2.config).bind portNumber)))

theorem portSetting_inj {n m : Option Nat} (h : portSetting n = portSetting m) : n = m := by
  rcases n with - | n <;> rcases m with - | m
  · rfl
  · cases h
  · cases h
  · have hnum : ((n : Nat) : Int) = m := Option.some.inj (Prod.ext_iff.mp h).2
    rw [Int.ofNat_inj.mp hnum]

/-! ## What the loop takes -/

/-- The token behind the first keyword. -/
def nextAfter (keyword : Bytes) : List Bytes → Option Bytes
  | [] => none
  | t :: ts => if t = keyword then ts.head? else nextAfter keyword ts

/-- The tokens behind each keyword, with the last token before. -/
def behind (keyword last : Bytes) : List Bytes → List Bytes
  | [] => []
  | t :: ts => if last = keyword then t :: behind keyword t ts else behind keyword t ts

theorem head?_behind (keyword last : Bytes) (ts : List Bytes) :
    (behind keyword last ts).head? = if last = keyword then ts.head? else nextAfter keyword ts := by
  induction ts generalizing last with
  | nil => rw [behind, nextAfter, List.head?_nil, ite_self]
  | cons t ts ih =>
    rw [behind]
    split
    · rfl
    · rw [ih, nextAfter]

/-- The queue of the loop. -/
theorem portLoop_gathered {s t : Locals (List Bytes)} (h : portLoop.Ends s t) :
    t.gathered = s.gathered ++ behind port s.lastToken s.cursor.left := by
  refine Program.Ends.loop_induction
    (P := fun s t : Locals (List Bytes) =>
      t.gathered = s.gathered ++ behind port s.lastToken s.cursor.left) ?_ ?_ h
  · intro s hend
    have htoken : s.cursor.token = [] := by simpa [Locals.token] using hend
    rw [s.cursor.left_eq_nil.mpr htoken, behind, List.append_nil]
  · intro s m t hmore hround ih
    have htoken : s.cursor.token ≠ [] := List.length_pos_iff.mp (of_decide_eq_true hmore)
    have hleft : s.cursor.left = s.cursor.token :: s.cursor.left.tail := by
      rw [Cursor.left, if_neg htoken]
      rfl
    obtain ⟨a, hitem, b, hkeep, hread⟩ := (Program.ends_seq.mp hround).imp fun _ h =>
      h.imp_right Program.ends_seq.mp
    obtain rfl := Program.ends_assign.mp hkeep
    obtain rfl := Program.ends_assign.mp hread
    rw [ih, Cursor.left_next, hleft, behind]
    rw [Program.ends_ite] at hitem
    by_cases hport : s.lastToken = port
    · have hpush : push.Ends s a := by simpa [hport, port] using hitem
      obtain rfl := Program.ends_assign.mp hpush
      rw [if_pos hport, List.append_assoc]
      rfl
    · have hskip : Program.skip.Ends s a := by
        rwa [if_neg (by simpa [port] using hport)] at hitem
      obtain rfl := Program.ends_skip.mp hskip
      rw [if_neg hport]
      rfl

/-- **`checkPortNum`** decides by the token behind the first word `port`. -/
theorem checkPortNum_eq {fuel : Nat} {file : Bytes} {out : Option (Bool × Option Int)}
    (h : checkPortNum fuel file = some out) :
    ∃ queue, out = firstPort queue ∧ queue.head? = nextAfter port (tokens file) := by
  obtain ⟨t, hrun, rfl⟩ := Option.map_eq_some_iff.mp h
  refine ⟨t.gathered, rfl, ?_⟩
  rw [portLoop_gathered ⟨fuel, hrun⟩, Locals.start, Cursor.left_read, List.nil_append,
    head?_behind]
  exact if_neg (List.cons_ne_nil _ _).symm

/-- It ends on every file. -/
theorem checkPortNum_some (file : Bytes) : ∃ fuel queue,
    checkPortNum fuel file = some (firstPort queue) ∧ queue.head? = nextAfter port (tokens file) := by
  obtain ⟨fuel, h⟩ := checkPortNum_ends file
  obtain ⟨out, hout⟩ := Option.isSome_iff_exists.mp h
  obtain ⟨queue, rfl, hhead⟩ := checkPortNum_eq hout
  exact ⟨fuel, queue, hout, hhead⟩

/-! ## What it makes of the token -/

/-- Digits of a number that is no `int`: `std::stoi` throws. -/
def TooLarge (text : Bytes) : Prop := (∀ c ∈ text, isDigit c = true) ∧ 2 ^ 31 ≤ decimal text

instance : DecidablePred TooLarge := fun text => by unfold TooLarge; infer_instance

theorem ne_nil_of_mem_tokens {file t : Bytes} (h : t ∈ tokens file) : t ≠ [] := by
  fun_induction tokens file with
  | case1 => exact absurd h List.not_mem_nil
  | case2 file hne _ ih =>
    rcases List.mem_cons.mp h with rfl | h
    · exact hne
    · exact ih h

theorem mem_of_nextAfter {keyword t : Bytes} {ts : List Bytes} (h : nextAfter keyword ts = some t) :
    t ∈ ts := by
  induction ts with
  | nil => cases h
  | cons u ts ih =>
    rw [nextAfter] at h
    split at h
    · exact List.mem_cons_of_mem _ (List.mem_of_head? h)
    · exact List.mem_cons_of_mem _ (ih h)

theorem isNumeric_iff {text : Bytes} : isNumeric text = true ↔ ∀ c ∈ text, isDigit c = true :=
  List.all_eq_true

/-- The first token of the queue gives the port that it names, or an exception. -/
theorem firstPort_cons {text : Bytes} (hne : text ≠ []) (queue : List Bytes) :
    firstPort (text :: queue) =
      if TooLarge text then none else some (portSetting (portNumber text)) := by
  rw [firstPort, portNumber]
  by_cases hdigits : ∀ c ∈ text, isDigit c = true
  · rw [isNumeric_iff.mpr hdigits, Bool.not_true, if_neg Bool.false_ne_true, stoi_digits hdigits hne]
    by_cases hlarge : 2 ^ 31 ≤ decimal text
    · rw [if_pos hlarge, if_pos ⟨hdigits, hlarge⟩]
      rfl
    · rw [if_neg hlarge, if_neg fun h => hlarge h.2]
      rw [Option.map_some]
      by_cases hrange : 1 ≤ decimal text ∧ decimal text ≤ 65535
      · have hvalid : isValid (decimal text) = true := by
          simp only [isValid, Bool.not_eq_true', Bool.or_eq_false_iff, decide_eq_false_iff_not]
          omega
        rw [hvalid, if_pos rfl, if_pos ⟨hne, hdigits, hrange⟩]
        rfl
      · have hvalid : isValid (decimal text) = false := by
          simp only [isValid, Bool.not_eq_false', Bool.or_eq_true, decide_eq_true_eq]
          omega
        rw [hvalid, if_neg Bool.false_ne_true, if_neg fun h => hrange h.2.2]
        rfl
  · have hnot : isNumeric text = false := Bool.eq_false_iff.mpr fun h => hdigits (isNumeric_iff.mp h)
    rw [hnot, Bool.not_false, if_pos rfl, if_neg fun h => hdigits h.1, if_neg fun h => hdigits h.2.1]
    rfl

theorem firstPort_eq {queue : List Bytes} (hne : ∀ text, queue.head? = some text → text ≠ []) :
    firstPort queue = if (∃ text, queue.head? = some text ∧ TooLarge text) then none
      else some (portSetting (queue.head?.bind portNumber)) := by
  rcases queue with - | ⟨text, queue⟩
  · rw [if_neg]
    · rfl
    · rintro ⟨text, h, -⟩
      cases h
  · rw [firstPort_cons (hne text rfl)]
    simp only [List.head?_cons, Option.some.injEq, exists_eq_left', Option.bind_some]

/-- What comes of a queue that begins behind the first word `port`. -/
theorem firstPort_queue {file : Bytes} {queue : List Bytes}
    (hhead : queue.head? = nextAfter port (tokens file)) : firstPort queue =
      if (∃ text, nextAfter port (tokens file) = some text ∧ TooLarge text) then none
      else some (portSetting ((nextAfter port (tokens file)).bind portNumber)) := by
  rw [← hhead]
  refine firstPort_eq fun text htext => ?_
  rw [hhead] at htext
  exact ne_nil_of_mem_tokens (mem_of_nextAfter htext)

theorem agreesWithTree_of_same {file : Bytes}
    (hsmall : ∀ text, nextAfter port (tokens file) = some text → ¬ TooLarge text)
    (hsame : (nextAfter port (tokens file)).bind portNumber =
      (portText (parse file).2.config).bind portNumber) : AgreesWithTree file := by
  obtain ⟨fuel, queue, hrun, hhead⟩ := checkPortNum_some file
  refine ⟨fuel, ?_⟩
  rw [hrun, firstPort_queue hhead, if_neg, hsame]
  rintro ⟨text, htext, hlarge⟩
  exact hsmall text htext hlarge

theorem same_of_agreesWithTree {file : Bytes} (h : AgreesWithTree file) :
    (∀ text, nextAfter port (tokens file) = some text → ¬ TooLarge text) ∧
      (nextAfter port (tokens file)).bind portNumber =
        (portText (parse file).2.config).bind portNumber := by
  obtain ⟨fuel, h⟩ := h
  obtain ⟨queue, hqueue, hhead⟩ := checkPortNum_eq h
  rw [firstPort_queue hhead] at hqueue
  split at hqueue
  · cases hqueue
  · next hlarge =>
    exact ⟨fun text htext hlong => hlarge ⟨text, htext, hlong⟩,
      (portSetting_inj (Option.some.inj hqueue)).symm⟩

/-! ## Where the tree has the token -/

theorem tokens_of_lexes {s : Bytes} {ts : List Token} {last : Last} (h : Lexes s ts last) :
    tokens s = ts.map Token.value ++ if last.value = [] then [] else [last.value] := by
  induction ts generalizing s with
  | nil =>
    rw [tokens_eq, h.getToken_nil, tokens_nil]
    rfl
  | cons t ts ih =>
    obtain ⟨rest, hget, hrest⟩ := h.getToken_cons
    rw [tokens_eq, hget, if_neg (h.value_ne_nil List.mem_cons_self), ih hrest]
    rfl

theorem nextAfter_append {keyword : Bytes} {a : List Bytes} (ha : keyword ∉ a) (b : List Bytes) :
    nextAfter keyword (a ++ b) = nextAfter keyword b := by
  induction a with
  | nil => rfl
  | cons t a ih =>
    rw [List.mem_cons, not_or] at ha
    rw [List.cons_append, nextAfter, if_neg (Ne.symm ha.1), ih ha.2]

/-- Only the word has the keyword's text. -/
theorem value_eq_port {t : Token} (h : t.value = port) : t = .word port := by
  cases t with
  | word w => exact congrArg Token.word h
  | semicolon | opening | closing => exact absurd h (by decide)
  | comment text => exact absurd (List.cons.inj h).1 (by decide)

/-- The text of a token that is a word. -/
def wordText : Token → Option Bytes
  | .word w => some w
  | _ => none

/-- The second token of the first statement `port` in a list of tokens, where the first one
begins a statement or not; the outer `none` is a list without such a statement. -/
def secondWord (starts : Bool) : List Token → Option (Option Bytes)
  | [] => none
  | t :: ts =>
    if starts = true ∧ t = .word port then some (ts.head?.bind wordText)
    else secondWord (wordText t).isNone ts

/-- The other words of a statement are passed. -/
theorem secondWord_words (words : List Bytes) {t : Token} (ht : wordText t = none) (ts : List Token) :
    secondWord false (words.map Token.word ++ t :: ts) = secondWord true ts := by
  induction words with
  | nil =>
    rw [List.map_nil, List.nil_append, secondWord, if_neg fun h => Bool.false_ne_true h.1, ht]
    rfl
  | cons w words ih =>
    rw [List.map_cons, List.cons_append, secondWord, if_neg fun h => Bool.false_ne_true h.1]
    exact ih

/-- A statement of its own, or what comes behind its words. -/
theorem secondWord_statement {words : List Bytes} (hne : words ≠ []) {t : Token}
    (ht : wordText t = none) (ts : List Token) :
    secondWord true (words.map Token.word ++ t :: ts) =
      if words.head? = some port then some words[1]? else secondWord true ts := by
  obtain ⟨w, words, rfl⟩ := List.exists_cons_of_ne_nil hne
  rw [List.map_cons, List.cons_append, secondWord, List.head?_cons]
  by_cases hw : w = port
  · rw [if_pos ⟨rfl, congrArg Token.word hw⟩, if_pos (congrArg some hw)]
    rcases words with - | ⟨v, words⟩
    · exact congrArg some ht
    · rfl
  · rw [if_neg fun h => hw (Token.word.inj h.2), if_neg fun h => hw (Option.some.inj h)]
    exact secondWord_words words ht ts

theorem portStatement_simple (words : List Bytes) (cfg : NginxConfig) :
    portStatement (.mk words none :: cfg) =
      if words.head? = some port then some (.mk words none) else portStatement cfg := by
  rw [portStatement, configInOrder, NginxConfigStatement.inOrder, List.singleton_append,
    List.find?_cons, NginxConfigStatement.tokens]
  by_cases hw : words.head? = some port
  · rw [if_pos hw, hw]
    rfl
  · rw [if_neg hw, beq_false_of_ne hw]
    rfl

theorem portStatement_block (words : List Bytes) (child cfg : NginxConfig) :
    portStatement (.mk words (some child) :: cfg) =
      if words.head? = some port then some (.mk words (some child))
      else (portStatement child).or (portStatement cfg) := by
  rw [portStatement, configInOrder, NginxConfigStatement.inOrder, List.cons_append,
    List.find?_cons, NginxConfigStatement.tokens, List.find?_append]
  by_cases hw : words.head? = some port
  · rw [if_pos hw, hw]
    rfl
  · rw [if_neg hw, beq_false_of_ne hw]
    rfl

/-- **The document order**: the first statement `port` of the tree is the first one in the text. -/
theorem secondWord_derives {ts : List Token} {cfg : NginxConfig} (h : Derives ts cfg)
    (rest : List Token) : secondWord true (ts ++ rest) =
      ((portStatement cfg).map fun s => s.tokens[1]?).or (secondWord true rest) := by
  induction h generalizing rest with
  | nil => rfl
  | @simple words ts cfg hne _ ih =>
    rw [List.append_assoc, List.cons_append, secondWord_statement hne rfl, ih, portStatement_simple]
    split <;> rfl
  | @block words inner ts child cfg hne _ _ ihinner ih =>
    have hclosing : secondWord true (.closing :: (ts ++ rest)) = secondWord true (ts ++ rest) :=
      if_neg fun h => Token.noConfusion h.2
    rw [List.append_assoc, List.cons_append, List.append_assoc, List.cons_append,
      secondWord_statement hne rfl, ihinner, hclosing, ih, portStatement_block]
    split
    · rfl
    · rw [← Option.or_assoc, ← Option.map_or]

/-- The text of the tree's port by the tokens. -/
theorem portText_derives {ts : List Token} {cfg : NginxConfig} (h : Derives ts cfg) :
    portText cfg = (secondWord true ts).bind id := by
  have hsecond := secondWord_derives h []
  rw [List.append_nil, secondWord, Option.or_none] at hsecond
  rw [hsecond, portText]
  rcases portStatement cfg with - | s <;> rfl

/-- Up to the first word `port`, which begins a statement. -/
theorem secondWord_append {starts : Bool} {a : List Token} (ha : Token.word port ∉ a)
    (hlast : (a.getLast?.map fun t => (wordText t).isNone).getD starts = true) (b : List Token) :
    secondWord starts (a ++ .word port :: b) = some (b.head?.bind wordText) := by
  induction a generalizing starts with
  | nil => exact if_pos ⟨hlast, rfl⟩
  | cons t a ih =>
    rw [List.mem_cons, not_or] at ha
    rw [List.cons_append, secondWord, if_neg fun h => ha.1 h.2.symm]
    refine ih ha.2 ?_
    rw [List.getLast?_cons, Option.map_some, Option.getD_some] at hlast
    rcases hu : a.getLast? with - | u <;> rwa [hu] at hlast

theorem secondWord_none {starts : Bool} {ts : List Token} (h : Token.word port ∉ ts) :
    secondWord starts ts = none := by
  induction ts generalizing starts with
  | nil => rfl
  | cons t ts ih =>
    rw [List.mem_cons, not_or] at h
    rw [secondWord, if_neg fun heq => h.1 heq.2.symm, ih h.2]

section Plain

variable {file : Bytes} {ts a b : List Token} {t : Token} {last : Last}

/-- The text of no token but a word is a number. -/
theorem portNumber_value (ht : t.significant = true) :
    portNumber t.value = (wordText t).bind portNumber := by
  cases t with
  | word w => rfl
  | semicolon | opening | closing => decide +kernel
  | comment text => cases ht

theorem portNumber_comment (ht : t.significant = false) : portNumber t.value = none := by
  cases t with
  | word | semicolon | opening | closing => cases ht
  | comment text => exact if_neg fun h => absurd (h.2.1 '#' List.mem_cons_self) (by decide)

/-- The tokens around the first word `port`: those before it, the one directly behind it, and the
others. -/
structure FirstPort (ts a : List Token) (t : Token) (b : List Token) : Prop where
  split : ts = a ++ .word port :: t :: b
  first : Token.word port ∉ a
  /-- it begins a statement: but for comments, no word is before it -/
  begins : ∀ u, (a.filter Token.significant).getLast? = some u → wordText u = none

/-- There is no word `port`, or the first one begins a statement. -/
def FirstBegins (ts : List Token) : Prop := Token.word port ∉ ts ∨ ∃ a t b, FirstPort ts a t b

/-- There is no word `port`, or the first one begins a statement and what is directly behind it is no
number that is too large, and no comment before a port number. -/
def PlainPort (ts : List Token) : Prop :=
  Token.word port ∉ ts ∨ ∃ a t b, FirstPort ts a t b ∧ ¬ TooLarge t.value ∧
    (t.significant = false →
      ((b.filter Token.significant).head?.bind wordText).bind portNumber = none)

/-- The code takes the token directly behind the first word `port`. -/
theorem FirstPort.nextAfter_eq (hfirst : FirstPort ts a t b) (h : Lexes file ts last) :
    nextAfter port (tokens file) = some t.value := by
  rw [tokens_of_lexes h, hfirst.split, List.map_append, List.append_assoc, nextAfter_append]
  · exact if_pos rfl
  · intro hmem
    obtain ⟨u, hu, hvalue⟩ := List.mem_map.mp hmem
    exact hfirst.first (value_eq_port hvalue ▸ hu)

theorem nextAfter_eq_none (h : Lexes file ts last) (hno : Token.word port ∉ ts) :
    nextAfter port (tokens file) = none := by
  rw [tokens_of_lexes h, nextAfter_append]
  · split
    · rfl
    · rw [nextAfter]
      split <;> rfl
  · intro hmem
    obtain ⟨u, hu, hvalue⟩ := List.mem_map.mp hmem
    exact hno (value_eq_port hvalue ▸ hu)

/-- The tree takes the next token that is no comment. -/
theorem FirstPort.portText_eq (hfirst : FirstPort ts a t b) (h : Lexes file ts last)
    (haccept : (parse file).1 = true) :
    portText (parse file).2.config = ((t :: b).filter Token.significant).head?.bind wordText := by
  obtain ⟨hlast, cfg, hd⟩ := derives_of_parse h haccept
  rw [parse_of_derives h hlast hd]
  change portText cfg = _
  rw [portText_derives hd, hfirst.split, List.filter_append, List.filter_cons_of_pos rfl, secondWord_append]
  · rfl
  · exact fun hmem => hfirst.first (List.mem_filter.mp hmem).1
  · rcases hu : (a.filter Token.significant).getLast? with - | u
    · rfl
    · rw [Option.map_some, Option.getD_some, hfirst.begins u hu]
      rfl

theorem portText_eq_none (h : Lexes file ts last) (haccept : (parse file).1 = true)
    (hno : Token.word port ∉ ts) : portText (parse file).2.config = none := by
  obtain ⟨hlast, cfg, hd⟩ := derives_of_parse h haccept
  rw [parse_of_derives h hlast hd]
  change portText cfg = none
  rw [portText_derives hd, secondWord_none fun hmem => hno (List.mem_filter.mp hmem).1]
  rfl

theorem agreesWithTree_of_plain (h : Lexes file ts last) (haccept : (parse file).1 = true)
    (hplain : PlainPort ts) : AgreesWithTree file := by
  rcases hplain with hno | ⟨a, t, b, hfirst, hsmall, hcomment⟩
  · have hnext := nextAfter_eq_none h hno
    refine agreesWithTree_of_same (fun text htext => ?_) ?_
    · cases hnext.symm.trans htext
    · rw [hnext, portText_eq_none h haccept hno]
  · have hnext := hfirst.nextAfter_eq h
    refine agreesWithTree_of_same (fun text htext => ?_) ?_
    · obtain rfl := Option.some.inj (hnext.symm.trans htext)
      exact hsmall
    · rw [hnext, hfirst.portText_eq h haccept, Option.bind_some]
      rcases hsignificant : t.significant with - | -
      · rw [List.filter_cons_of_neg (by simp [hsignificant]), hcomment hsignificant,
          portNumber_comment hsignificant]
      · rw [List.filter_cons_of_pos hsignificant, portNumber_value hsignificant]
        rfl

theorem plain_of_agreesWithTree (h : Lexes file ts last) (haccept : (parse file).1 = true)
    (hbegins : FirstBegins ts) (hagrees : AgreesWithTree file) : PlainPort ts := by
  rcases hbegins with hno | ⟨a, t, b, hfirst⟩
  · exact Or.inl hno
  · obtain ⟨hsmall, hsame⟩ := same_of_agreesWithTree hagrees
    have hnext := hfirst.nextAfter_eq h
    refine Or.inr ⟨a, t, b, hfirst, hsmall _ hnext, fun hcomment => ?_⟩
    rw [hnext, hfirst.portText_eq h haccept, Option.bind_some, portNumber_comment hcomment,
      List.filter_cons_of_neg (by simp [hcomment])] at hsame
    exact hsame.symm

/-- **Port selection**: an accepted file with a plain port, or without any, gives `checkPortNum` the
port of the tree; and where its first word `port` begins a statement, no other one does. -/
theorem agreesWithTree_iff (h : Lexes file ts last) (haccept : (parse file).1 = true) :
    (PlainPort ts → AgreesWithTree file) ∧
      (FirstBegins ts → (AgreesWithTree file ↔ PlainPort ts)) :=
  ⟨agreesWithTree_of_plain h haccept, fun hbegins =>
    ⟨plain_of_agreesWithTree h haccept hbegins, agreesWithTree_of_plain h haccept⟩⟩

/-- A file with nothing but a port. -/
theorem agreesWithTree_plain : AgreesWithTree (str "port 80;") := by
  have hport : OrdinaryWord port := .mk rfl (by simp; decide)
  have hnumber : OrdinaryWord (str "80") := .mk rfl (by simp; decide)
  have hlex : Lexes (str "port 80;") [.word port, .word (str "80"), .semicolon] .nothing :=
    .ordinary (e := ' ') hport rfl (.blank rfl (.ordinary (e := ';') hnumber rfl (.semicolon .nil)))
  have hderives : Derives [.word port, .word (str "80"), .semicolon] _ :=
    @Derives.simple [port, str "80"] [] [] (List.cons_ne_nil _ _) .nil
  have haccept : (parse (str "port 80;")).1 = true := by
    rw [parse_of_derives hlex rfl hderives]
  have hfirst : FirstPort [.word port, .word (str "80"), .semicolon] [] (.word (str "80")) [.semicolon] :=
    ⟨rfl, List.not_mem_nil, fun _ hu => by cases hu⟩
  exact (agreesWithTree_iff hlex haccept).1
    (Or.inr ⟨_, _, _, hfirst, by decide +kernel, fun hcomment => by cases hcomment⟩)

end Plain

/-- `std::stoi` throws on a number that is no `int`, although its statement is well formed. -/
theorem not_agreesWithTree_large :
    ¬ ∀ file, (parse file).1 = true → AgreesWithTree file := by
  intro h
  have hport : OrdinaryWord port := .mk rfl (by simp; decide)
  have hnumber : OrdinaryWord (str "99999999999") := .mk rfl (by simp; decide)
  have hlex : Lexes (str "port 99999999999;") [.word port, .word (str "99999999999"), .semicolon]
      .nothing :=
    .ordinary (e := ' ') hport rfl (.blank rfl (.ordinary (e := ';') hnumber rfl (.semicolon .nil)))
  have hderives : Derives [.word port, .word (str "99999999999"), .semicolon] _ :=
    @Derives.simple [port, str "99999999999"] [] [] (List.cons_ne_nil _ _) .nil
  have haccept : (parse (str "port 99999999999;")).1 = true := by
    rw [parse_of_derives hlex rfl hderives]
  have hnext : nextAfter port (tokens (str "port 99999999999;")) = some (str "99999999999") := by
    rw [tokens_of_lexes hlex]
    rfl
  have hlarge : TooLarge (str "99999999999") := ⟨forall_mem_of_all (by decide), by decide⟩
  exact (same_of_agreesWithTree (h _ haccept)).1 _ hnext hlarge

end Port

end LowKeyWebServer
