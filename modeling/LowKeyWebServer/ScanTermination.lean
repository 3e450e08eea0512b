import LowKeyWebServer.TokenLoops
import LowKeyWebServer.PortScan

/-!
# Which config files are scanned to their end

`checkPortNum` ends on every file. What `checkFilePath` and `setConfigBlocks` do behind the word
`location` is a relation on tokens (`PathItem`, `HeaderItem`), and the two end on the files
that are `Scanned` with it: a block that is skipped to a token has to have that token.
-/

namespace LowKeyWebServer

namespace Port

open NginxConfigParser Program

/-- What `checkFilePath` takes behind `location`, and what it leaves, from the token it stops
at on. -/
inductive PathItem : List Bytes → List Bytes → Prop
  /-- the file ends behind the keyword -/
  | none : PathItem [] []
  /-- a block, up to its first semicolon -/
  | block {p : Bytes} {ts rest : List Bytes} : FromFirst semicolon ts rest →
      PathItem (p :: opening :: ts) rest
  /-- no block behind the alias -/
  | bare {p : Bytes} {ts : List Bytes} : ts.head? ≠ some opening → PathItem (p :: ts) ts

/-- What `setConfigBlocks` takes behind `location`, and what it leaves. -/
inductive HeaderItem : List Bytes → List Bytes → Prop
  /-- the file ends behind the keyword -/
  | none : HeaderItem [] []
  /-- the file ends behind the prefix -/
  | short {p : Bytes} : HeaderItem [p] []
  /-- a handler whose block is skipped, up to the closing brace -/
  | skipped {p h : Bytes} {ts rest : List Bytes} : skipsBlock h = true → FromFirst closing ts rest →
      HeaderItem (p :: h :: ts) rest
  /-- the block of another handler, up to its first semicolon -/
  | block {p h : Bytes} {ts rest : List Bytes} : skipsBlock h = false →
      FromFirst semicolon ts rest → HeaderItem (p :: h :: opening :: ts) rest
  /-- no block behind the handler type -/
  | bare {p h : Bytes} {ts : List Bytes} : skipsBlock h = false → ts.head? ≠ some opening →
      HeaderItem (p :: h :: ts) ts

variable {α : Type}

theorem opening_iff (s : Locals α) : (s.token == opening) = true ↔ s.view.2.head? = some opening := by
  rw [beq_iff_eq]
  exact s.cursor.token_eq_iff (by decide)

theorem follows_pathItem :
    Follows Locals.view pathItem fun a b => b.1 = a.1 ∧ PathItem a.2 b.2 := by
  have hloop : Follows Locals.view (untilToken semicolon (.seq push readToken))
      fun a b => b.1 = a.1 ∧ FromFirst semicolon a.2 b.2 := by
    refine follows_untilToken (by decide) (((follows_gather _).seq follows_readToken).congr ?_)
    rintro a b
    exact ⟨fun ⟨m, hm, hb⟩ => hm ▸ hb, fun hb => ⟨a, rfl, hb⟩⟩
  refine ((follows_gather _).seq (follows_readToken.seq
    ((follows_readToken.seq hloop).ite (C := fun a => a.2.head? = some opening) opening_iff
      follows_skip))).congr ?_
  rintro ⟨last, ts⟩ ⟨last', rest⟩
  constructor
  · rintro ⟨-, rfl, -, rfl, ⟨hopen, -, rfl, rfl, h⟩ | ⟨hopen, hrest⟩⟩
    · refine ⟨rfl, ?_⟩
      rcases ts with - | ⟨p, ts⟩
      · cases hopen
      · obtain ⟨ts, rfl⟩ := List.head?_eq_some_iff.mp hopen
        exact .block h
    · injection hrest with hlast hrest
      subst hlast hrest
      refine ⟨rfl, ?_⟩
      rcases ts with - | ⟨p, ts⟩
      · exact .none
      · exact .bare hopen
  · rintro ⟨rfl, h⟩
    cases h with
    | none => exact ⟨_, rfl, _, rfl, .inr ⟨by simp, rfl⟩⟩
    | block h => exact ⟨_, rfl, _, rfl, .inl ⟨rfl, _, rfl, rfl, h⟩⟩
    | bare hopen => exact ⟨_, rfl, _, rfl, .inr ⟨hopen, rfl⟩⟩

theorem skipsBlock_nil : skipsBlock [] = false := by decide

theorem ne_closing {h : Bytes} (hskips : skipsBlock h = true) : h ≠ closing := by
  rintro rfl
  exact absurd hskips (by decide)

theorem FromFirst.head_ne_opening {ts rest : List Bytes} (h : FromFirst closing ts rest) :
    rest.head? ≠ some opening := by
  obtain ⟨body, after, -, -, rfl⟩ := h
  exact fun heq => absurd (Option.some.inj heq) (by decide)

theorem headerItem_skipped {ts rest : List Bytes} (hskips : skipsBlock (ts.tail.headD []) = true)
    (h : FromFirst closing ts.tail rest) : HeaderItem ts rest := by
  rcases ts with - | ⟨p, - | ⟨t, ts⟩⟩
  · exact absurd h not_fromFirst_nil
  · exact absurd h not_fromFirst_nil
  · exact .skipped hskips ((fromFirst_cons (ne_closing hskips)).mp h)

theorem headerItem_block {ts rest : List Bytes} (hskips : ¬ skipsBlock (ts.tail.headD []) = true)
    (hopen : ts.tail.tail.head? = some opening) (h : FromFirst semicolon ts.tail.tail.tail rest) :
    HeaderItem ts rest := by
  rcases ts with - | ⟨p, - | ⟨t, ts⟩⟩
  · cases hopen
  · cases hopen
  · obtain ⟨ts, rfl⟩ := List.head?_eq_some_iff.mp hopen
    exact .block (Bool.eq_false_iff.mpr hskips) h

theorem headerItem_bare {ts : List Bytes} (hskips : ¬ skipsBlock (ts.tail.headD []) = true)
    (hopen : ¬ ts.tail.tail.head? = some opening) : HeaderItem ts ts.tail.tail := by
  rcases ts with - | ⟨p, - | ⟨t, ts⟩⟩
  · exact .none
  · exact .short
  · exact .bare (Bool.eq_false_iff.mpr hskips) hopen

theorem follows_headerItem :
    Follows Locals.view headerItem fun a b => b.1 = a.1 ∧ HeaderItem a.2 b.2 := by
  have hclosing : Follows Locals.view (.seq pushBlock (untilToken closing readToken))
      fun a b => b.1 = a.1 ∧ FromFirst closing a.2 b.2 := by
    refine ((follows_gather _).seq (follows_untilToken (by decide)
      follows_readToken)).congr fun a b => ?_
    exact ⟨fun ⟨m, hm, hb⟩ => hm ▸ hb, fun hb => ⟨a, rfl, hb⟩⟩
  have hsemicolon : Follows Locals.view
      (.seq pushBlock (.seq readToken (untilToken semicolon readToken)))
      fun a b => b.1 = a.1 ∧ FromFirst semicolon a.2.tail b.2 := by
    refine ((follows_gather _).seq (follows_readToken.seq (follows_untilToken (by decide)
      follows_readToken))).congr fun a b => ?_
    exact ⟨fun ⟨_, hm, _, hn, hb⟩ => by subst hm hn; exact hb, fun hb => ⟨a, rfl, _, rfl, hb⟩⟩
  have hskips : ∀ s : Locals Headers,
      skipsBlock s.token = true ↔ skipsBlock (s.view.2.headD []) = true := by
    intro s
    rw [Locals.token, s.cursor.token_eq]
    rfl
  refine ((follows_gather _).seq (follows_readToken.seq ((follows_gather _).seq
    ((hclosing.ite (C := fun a => skipsBlock (a.2.headD []) = true) hskips follows_readToken).seq
      (hsemicolon.ite (C := fun a => a.2.head? = some opening) opening_iff
        follows_skip))))).congr ?_
  rintro ⟨last, ts⟩ ⟨last', rest⟩
  constructor
  · rintro ⟨-, rfl, -, rfl, -, rfl, ⟨last₁, ts₁⟩, hknown, hstatic⟩
    rcases hknown with ⟨hskips, rfl, h₁⟩ | ⟨hskips, h₁⟩
    · rcases hstatic with ⟨hopen, -⟩ | ⟨-, hrest⟩
      · exact absurd hopen h₁.head_ne_opening
      · injection hrest with hlast hrest
        subst hlast hrest
        exact ⟨rfl, headerItem_skipped hskips h₁⟩
    · injection h₁ with hlast hts
      subst hlast hts
      rcases hstatic with ⟨hopen, rfl, h⟩ | ⟨hopen, hrest⟩
      · exact ⟨rfl, headerItem_block hskips hopen h⟩
      · injection hrest with hlast hrest
        subst hlast hrest
        exact ⟨rfl, headerItem_bare hskips hopen⟩
  · rintro ⟨rfl, h⟩
    cases h with
    | none | short =>
      refine ⟨_, rfl, _, rfl, _, rfl, (last', []), .inr ⟨?_, rfl⟩, .inr ⟨?_, rfl⟩⟩
      · exact Bool.eq_false_iff.mp skipsBlock_nil
      · exact Option.some_ne_none _ ∘ Eq.symm
    | skipped hskips h =>
      refine ⟨_, rfl, _, rfl, _, rfl, (last', rest), .inl ⟨hskips, rfl, ?_⟩, .inr ⟨?_, rfl⟩⟩
      · exact (fromFirst_cons (ne_closing hskips)).mpr h
      · exact h.head_ne_opening
    | block hskips h =>
      refine ⟨_, rfl, _, rfl, _, rfl, _, .inr ⟨?_, rfl⟩, .inl ⟨rfl, rfl, h⟩⟩
      exact Bool.eq_false_iff.mp hskips
    | bare hskips hopen =>
      refine ⟨_, rfl, _, rfl, _, rfl, _, .inr ⟨?_, rfl⟩, .inr ⟨hopen, rfl⟩⟩
      exact Bool.eq_false_iff.mp hskips

/-! ## The three scans -/

theorem scanned_start {keyword : Bytes} (hkeyword : keyword ≠ []) {Item : List Bytes → List Bytes → Prop}
    {ts : List Bytes} : Scanned keyword Item ([] :: ts) ↔ Scanned keyword Item ts := by
  constructor
  · intro h
    cases h with
    | pass _ h => exact h
    | item _ _ => exact absurd rfl hkeyword
  · exact .pass hkeyword.symm

/-- A scan of a file from its start. -/
theorem scan_ends_iff {keyword : Bytes} (hkeyword : keyword ≠ []) {item : Program (Locals α)}
    {Item : List Bytes → List Bytes → Prop} (hnil : Item [] [])
    (hitem : Follows Locals.view item fun a b => b.1 = a.1 ∧ Item a.2 b.2) (file : Bytes)
    (gathered : α) :
    (∃ fuel, ((tokenLoop keyword item).run fuel (.start file gathered)).isSome) ↔
      Scanned keyword Item (tokens file) := by
  have hends := @tokenLoop_ends_iff α keyword Item item hnil hitem (.start file gathered)
  rw [Locals.start, Cursor.left_read, scanned_start hkeyword] at hends
  rw [← hends]
  simp only [Ends, Option.isSome_iff_exists]
  exact exists_comm

/-- Any tokens can be scanned where a keyword takes nothing. -/
theorem scanned_eq {keyword : Bytes} (ts : List Bytes) : Scanned keyword Eq ts := by
  induction ts with
  | nil => exact .nil
  | cons t ts ih =>
    by_cases ht : t = keyword
    · rw [ht]
      exact .item rfl ih
    · exact .pass ht ih

/-- `checkPortNum` ends on every file. -/
theorem checkPortNum_ends (file : Bytes) : ∃ fuel, (checkPortNum fuel file).isSome := by
  have hpush : Follows Locals.view push fun a b => b.1 = a.1 ∧ a.2 = b.2 :=
    (follows_gather _).congr fun _ _ => Prod.ext_iff.trans (and_congr_right' eq_comm)
  simp only [checkPortNum, Option.isSome_map]
  exact (scan_ends_iff (by decide) rfl hpush file []).mpr (scanned_eq _)

theorem checkFilePath_ends_iff (file : Bytes) :
    (∃ fuel, (checkFilePath fuel file).isSome) ↔ Scanned location PathItem (tokens file) := by
  simp only [checkFilePath, Option.isSome_map]
  exact scan_ends_iff (by decide) .none follows_pathItem file []

theorem scanBlocks_ends_iff (file : Bytes) :
    (∃ fuel, (scanBlocks fuel file).isSome) ↔ Scanned location HeaderItem (tokens file) := by
  simp only [scanBlocks, Option.isSome_map]
  exact scan_ends_iff (by decide) .none follows_headerItem file _

/-! ## The loop of `setConfigBlocks` and its function -/

section Blocks

/-- The locals of `setConfigBlocks` without the stream's invariant. -/
def blockView (s : Locals Headers) : Bytes × ConfigBlock × Scan :=
  (s.lastToken, s.gathered.block, ⟨s.token, s.cursor.input, s.gathered.configBlocks⟩)

/-- `token = config_parser.getToken(input);` on them. -/
def readScan (s : Scan) : Scan := ⟨(getToken s.input).1, (getToken s.input).2, s.configBlocks⟩

theorem follows_readScan :
    Follows blockView readToken fun a b => b = (a.1, a.2.1, readScan a.2.2) :=
  follows_assign fun _ => rfl

theorem skipTo_of_while {target : Bytes} (htarget : target ≠ []) {a b : Bytes × ConfigBlock × Scan}
    (h : While (fun a => a.2.2.token ≠ target) (fun a b => b = (a.1, a.2.1, readScan a.2.2)) a b) :
    ∃ input, skipTo target a.2.2.token a.2.2.input = some input ∧
      b = (a.1, a.2.1, ⟨target, input, a.2.2.configBlocks⟩) := by
  induction h with
  | @done a hC =>
    obtain ⟨last, block, token, input, blocks⟩ := a
    obtain rfl := not_not.mp hC
    exact ⟨input, by rw [skipTo, if_pos rfl], rfl⟩
  | @next a m b hC hm _ ih =>
    subst hm
    obtain ⟨input, hskip, rfl⟩ := ih
    refine ⟨input, ?_, rfl⟩
    by_cases hinput : a.2.2.input = []
    · rw [readScan, hinput, getToken_nil, skipTo_nil htarget.symm] at hskip
      cases hskip
    · rw [skipTo_next hC hinput]
      exact hskip

theorem while_of_skipTo {target token input rest : Bytes} (h : skipTo target token input = some rest)
    (last : Bytes) (block : ConfigBlock) (blocks : List ConfigBlock) :
    While (fun a => a.2.2.token ≠ target) (fun a b => b = (a.1, a.2.1, readScan a.2.2))
      (last, block, ⟨token, input, blocks⟩) (last, block, ⟨target, rest, blocks⟩) := by
  fun_induction skipTo target token input with
  | case1 =>
    obtain rfl := Option.some.inj h
    exact .done fun hC => hC rfl
  | case2 => cases h
  | case3 _ _ hne _ _ ih => exact .next hne rfl (ih h)

/-- An inner loop is `skipTo`. -/
theorem follows_skipTo {target : Bytes} (htarget : target ≠ []) :
    Follows blockView (untilToken target readToken) fun a b =>
      ∃ input, skipTo target a.2.2.token a.2.2.input = some input ∧
        b = (a.1, a.2.1, ⟨target, input, a.2.2.configBlocks⟩) := by
  refine (follows_readScan.loop (C := fun a => a.2.2.token ≠ target) fun s => bne_iff_ne).congr
    fun a b => ⟨skipTo_of_while htarget, ?_⟩
  rintro ⟨input, hskip, rfl⟩
  exact while_of_skipTo hskip _ _ _

theorem follows_pushBlock : Follows blockView pushBlock fun a b =>
    b = (a.1, a.2.1, { a.2.2 with configBlocks := a.2.2.configBlocks ++ [a.2.1] }) :=
  follows_assign fun _ => rfl

theorem follows_readKnown :
    Follows blockView
      (.ite (fun s => skipsBlock s.token) (.seq pushBlock (untilToken closing readToken)) readToken)
      fun a b => b.1 = a.1 ∧ b.2.1 = a.2.1 ∧ readKnown a.2.1 a.2.2 = some b.2.2 := by
  have hclosing : closing ≠ [] := by decide
  refine ((follows_pushBlock.seq (follows_skipTo hclosing)).ite
    (C := fun a => skipsBlock a.2.2.token = true) (fun _ => Iff.rfl) follows_readScan).congr ?_
  rintro ⟨last, block, s⟩ ⟨last', block', s'⟩
  rw [readKnown]
  constructor
  · rintro (⟨hskips, -, rfl, input, hskip, hb⟩ | ⟨hskips, hb⟩) <;> cases hb
    · rw [if_pos hskips]
      exact ⟨rfl, rfl, Option.map_eq_some_iff.mpr ⟨input, hskip, rfl⟩⟩
    · rw [if_neg hskips]
      exact ⟨rfl, rfl, rfl⟩
  · rintro ⟨hlast, hblock, h⟩
    dsimp only at hlast hblock h
    subst hlast hblock
    split at h
    · next hskips =>
      obtain ⟨input, hskip, rfl⟩ := Option.map_eq_some_iff.mp h
      exact .inl ⟨hskips, _, rfl, input, hskip, rfl⟩
    · next hskips =>
      obtain rfl := Option.some.inj h
      exact .inr ⟨hskips, rfl⟩

theorem follows_readStatic :
    Follows blockView
      (.ite (fun s => s.token == opening)
        (.seq pushBlock (.seq readToken (untilToken semicolon readToken))) .skip)
      fun a b => b.1 = a.1 ∧ b.2.1 = a.2.1 ∧ readStatic a.2.1 a.2.2 = some b.2.2 := by
  have hsemicolon : semicolon ≠ [] := by decide
  refine ((follows_pushBlock.seq (follows_readScan.seq (follows_skipTo hsemicolon))).ite
    (C := fun a => a.2.2.token = str "\x7b") (fun _ => beq_iff_eq) follows_skip).congr ?_
  rintro ⟨last, block, s⟩ ⟨last', block', s'⟩
  rw [readStatic]
  constructor
  · rintro (⟨hopen, -, rfl, -, rfl, input, hskip, hb⟩ | ⟨hopen, hb⟩) <;> cases hb
    · rw [if_pos hopen]
      exact ⟨rfl, rfl, Option.map_eq_some_iff.mpr ⟨input, hskip, rfl⟩⟩
    · rw [if_neg hopen]
      exact ⟨rfl, rfl, rfl⟩
  · rintro ⟨hlast, hblock, h⟩
    dsimp only at hlast hblock h
    subst hlast hblock
    split at h
    · next hopen =>
      obtain ⟨input, hskip, rfl⟩ := Option.map_eq_some_iff.mp h
      exact .inl ⟨hopen, _, rfl, _, rfl, input, hskip, rfl⟩
    · next hopen =>
      obtain rfl := Option.some.inj h
      exact .inr ⟨hopen, rfl⟩

/-- Behind `location` the loop does what `readHeader` does. -/
theorem follows_readHeader : Follows blockView headerItem fun a b =>
    b.1 = a.1 ∧ b.2.1 = ⟨a.2.2.token, (getToken a.2.2.input).1, []⟩ ∧
      readHeader a.2.2 = some b.2.2 := by
  have hset : Follows blockView setPrefix fun a b =>
      b = (a.1, ⟨a.2.2.token, [], []⟩, a.2.2) := follows_assign fun _ => rfl
  have htype : Follows blockView setHandlerType fun a b =>
      b = (a.1, { a.2.1 with handlerType := a.2.2.token }, a.2.2) := follows_assign fun _ => rfl
  refine (hset.seq (follows_readScan.seq (htype.seq
    (follows_readKnown.seq follows_readStatic)))).congr ?_
  rintro ⟨last, block, s⟩ ⟨last', block', s'⟩
  constructor
  · rintro ⟨-, rfl, -, rfl, -, rfl, ⟨last₁, block₁, m⟩, ⟨hlast, hblock, hknown⟩, hlast', hblock',
      hstatic⟩
    dsimp only at hlast hblock hknown hlast' hblock' hstatic
    subst hlast hblock hlast' hblock'
    exact ⟨rfl, rfl, Option.bind_eq_some_iff.mpr ⟨m, hknown, hstatic⟩⟩
  · rintro ⟨hlast, hblock, h⟩
    dsimp only at hlast hblock h
    subst hlast hblock
    obtain ⟨m, hknown, hstatic⟩ := Option.bind_eq_some_iff.mp h
    exact ⟨_, rfl, _, rfl, _, rfl, (_, _, m), ⟨rfl, rfl, hknown⟩, rfl, rfl, hstatic⟩

/-- One round of the loop. -/
def BlockRound (a b : Bytes × ConfigBlock × Scan) : Prop :=
  ∃ block m,
    (a.1 = location ∧ block = ⟨a.2.2.token, (getToken a.2.2.input).1, []⟩ ∧
        readHeader a.2.2 = some m ∨
      ¬ a.1 = location ∧ block = a.2.1 ∧ m = a.2.2) ∧
    b = (m.token, block, readScan m)

theorem scanHeaders_of_while {a b : Bytes × ConfigBlock × Scan}
    (h : While (fun a => a.2.2.token ≠ []) BlockRound a b) :
    scanHeaders a.1 a.2.2 = some b.2.2.configBlocks := by
  induction h with
  | done hC => rw [scanHeaders, dif_pos (not_not.mp hC)]
  | @next a m b hC hround _ ih =>
    obtain ⟨block, s, ⟨ha, -, hs⟩ | ⟨ha, -, rfl⟩, rfl⟩ := hround
    · rw [ha, scanHeaders_header hC, hs]
      exact ih
    · rw [scanHeaders_pass ha hC]
      exact ih

theorem while_of_scanHeaders {last : Bytes} {s : Scan} {blocks : List ConfigBlock}
    (h : scanHeaders last s = some blocks) (block : ConfigBlock) :
    ∃ b, While (fun a => a.2.2.token ≠ []) BlockRound (last, block, s) b ∧
      b.2.2.configBlocks = blocks := by
  fun_induction scanHeaders last s generalizing block with
  | case1 last s htoken =>
    exact ⟨_, .done fun hC => hC htoken, Option.some.inj h⟩
  | case2 => cases h
  | case3 last s htoken m hm _ ih =>
    by_cases hl : last = location
    · rw [dif_pos hl] at hm
      obtain ⟨b, hb, hblocks⟩ := ih h ⟨s.token, (getToken s.input).1, []⟩
      exact ⟨b, .next htoken ⟨_, m, .inl ⟨hl, rfl, hm⟩, rfl⟩ hb, hblocks⟩
    · rw [dif_neg hl] at hm
      obtain rfl := Option.some.inj hm
      obtain ⟨b, hb, hblocks⟩ := ih h block
      exact ⟨b, .next htoken ⟨_, s, .inr ⟨hl, rfl, rfl⟩, rfl⟩ hb, hblocks⟩

theorem follows_headerLoop :
    Follows blockView headerLoop (While (fun a => a.2.2.token ≠ []) BlockRound) := by
  have hkeep : Follows blockView keepToken fun a b => b = (a.2.2.token, a.2.1, a.2.2) :=
    follows_assign fun _ => rfl
  have hcond : ∀ s : Locals Headers,
      decide (s.token.length > 0) = true ↔ (blockView s).2.2.token ≠ [] := by
    intro s
    rw [decide_eq_true_iff]
    exact List.length_pos_iff
  have hkeyword : ∀ s : Locals Headers,
      (s.lastToken == location) = true ↔ (blockView s).1 = location := fun _ => beq_iff_eq
  have hround : Follows blockView
      (.seq (.ite (fun s => s.lastToken == location) headerItem .skip) (.seq keepToken readToken))
      BlockRound := by
    refine ((follows_readHeader.ite (C := fun a => a.1 = location) hkeyword follows_skip).seq
      (hkeep.seq follows_readScan)).congr fun a b => ?_
    constructor
    · rintro ⟨m, ⟨ha, -, hblock, hm⟩ | ⟨ha, rfl⟩, -, rfl, rfl⟩
      · exact ⟨m.2.1, m.2.2, .inl ⟨ha, hblock, hm⟩, rfl⟩
      · exact ⟨_, _, .inr ⟨ha, rfl, rfl⟩, rfl⟩
    · rintro ⟨block, m, ⟨ha, hblock, hm⟩ | ⟨ha, rfl, rfl⟩, rfl⟩
      · exact ⟨(a.1, block, m), .inl ⟨ha, rfl, hblock, hm⟩, _, rfl, rfl⟩
      · exact ⟨a, .inr ⟨ha, rfl⟩, _, rfl, rfl⟩
  exact hround.loop (C := fun a => a.2.2.token ≠ []) hcond

/-- **The loop is the scan**: what `scanHeaders` returns is what the loop gathers, and it
returns nothing where the loop runs forever. -/
theorem scanBlocks_eq_some (file : Bytes) (blocks : List ConfigBlock) :
    (∃ fuel, scanBlocks fuel file = some blocks) ↔
      scanHeaders [] ⟨(getToken file).1, (getToken file).2, []⟩ = some blocks := by
  have hends := follows_headerLoop (.start file ⟨⟨[], [], []⟩, []⟩)
  simp only [scanBlocks, Option.map_eq_some_iff]
  constructor
  · rintro ⟨fuel, t, ht, rfl⟩
    exact scanHeaders_of_while ((hends (blockView t)).mpr ⟨t, ⟨fuel, ht⟩, rfl⟩)
  · intro h
    obtain ⟨b, hb, rfl⟩ := while_of_scanHeaders h ⟨[], [], []⟩
    obtain ⟨t, ⟨fuel, ht⟩, rfl⟩ := (hends b).mp hb
    exact ⟨fuel, t, ht, rfl⟩

end Blocks

/-! ## Termination -/

/-- The three scans of a file return, or throw. -/
def ScansEnd (file : Bytes) : Prop :=
  (∃ fuel, (checkPortNum fuel file).isSome) ∧ (∃ fuel, (scanBlocks fuel file).isSome) ∧
    ∃ fuel, (checkFilePath fuel file).isSome

/-- **Termination**: the scans of a file end if and only if each block they skip at a
`location` has the token they skip it to. -/
theorem scansEnd_iff (file : Bytes) :
    ScansEnd file ↔
      Scanned location HeaderItem (tokens file) ∧ Scanned location PathItem (tokens file) := by
  rw [ScansEnd, scanBlocks_ends_iff, checkFilePath_ends_iff]
  exact and_iff_right (checkPortNum_ends file)

/-- The scan passes a token. -/
theorem Scanned.of_pass {keyword t : Bytes} {Item : List Bytes → List Bytes → Prop} {ts : List Bytes}
    (h : Scanned keyword Item (t :: ts)) (ht : t ≠ keyword) : Scanned keyword Item ts := by
  cases h with
  | pass _ h => exact h
  | item _ _ => exact absurd rfl ht

/-- Another handler's block without a semicolon. -/
theorem not_headerItem {p h : Bytes} {ts rest : List Bytes} (hskips : skipsBlock h = false)
    (hts : semicolon ∉ ts) : ¬ HeaderItem (p :: h :: opening :: ts) rest := by
  intro hitem
  cases hitem with
  | skipped hskips' _ => exact absurd (hskips.symm.trans hskips') Bool.false_ne_true
  | block _ hfirst =>
    obtain ⟨body, after, -, rfl, -⟩ := hfirst
    exact hts (List.mem_append_right _ List.mem_cons_self)
  | bare _ hopen => exact hopen rfl

/-- An empty block: `Parse` accepts the config, and `setConfigBlocks` never ends. -/
theorem not_scansEnd : ¬ ∀ file, ScansEnd file := by
  intro h
  have hscan := (scanBlocks_ends_iff (str "port 80; location / StaticHandler \x7b \x7d")).mp (h _).2.1
  have htokens : tokens (str "port 80; location / StaticHandler \x7b \x7d") =
      str "port" :: str "80" :: semicolon :: location :: str "/" :: str "StaticHandler" ::
        opening :: [closing] := by
    decide +kernel
  rw [htokens] at hscan
  have hlocation := ((hscan.of_pass (by decide)).of_pass (by decide)).of_pass
    (by decide)
  cases hlocation with
  | pass hne _ => exact hne rfl
  | item hitem _ => exact not_headerItem (by decide) (by decide) hitem

end Port

end LowKeyWebServer
