import LowKeyWebServer.LinkRewriting

/-!
# What is inserted into a page

`parse_html_body` on a whole page: where it inserts the location (`parseHtmlBody_eq`), and which
of these places are the start of a quotation (`opens_iff`).
-/

namespace LowKeyWebServer

namespace ProxyHandler

variable {h : ProxyHandler} {msg : Bytes}

/-! ## The pending quotation marks -/

/-- The length of the run of quotation marks at the end. -/
def quotesAtEnd (s : Bytes) : Nat := (s.reverse.takeWhile fun c : Byte => c == '"').length

/-- `curr_target`, when this much has been read. -/
def pending (done : Bytes) : Bytes := List.replicate (quotesAtEnd done) ('"' : Byte)

/-- A slash that directly follows a run of exactly one quotation mark. -/
def AfterOneQuote (msg : Bytes) (i : Nat) : Prop :=
  msg[i]? = some ('/' : Byte) ∧ quotesAtEnd (msg.take i) = 1

instance (msg : Bytes) (i : Nat) : Decidable (AfterOneQuote msg i) :=
  inferInstanceAs (Decidable (_ ∧ _))

theorem quotesAtEnd_snoc (s : Bytes) (c : Byte) :
    quotesAtEnd (s ++ [c]) = if c = '"' then quotesAtEnd s + 1 else 0 := by
  rw [quotesAtEnd, List.reverse_append, List.reverse_singleton, List.singleton_append,
    List.takeWhile_cons]
  by_cases hc : c = '"'
  · rw [if_pos (beq_iff_eq.mpr hc), if_pos hc, List.length_cons]
    rfl
  · rw [if_neg fun heq => hc (beq_iff_eq.mp heq), if_neg hc, List.length_nil]

/-- What is put before a character. -/
def inserted (target done : Bytes) (c : Byte) : Bytes :=
  if c = '/' ∧ quotesAtEnd done = 1 then target else []

/-- **One character**: what is inserted, the character, and the new pending marks. -/
theorem editHtml_cons (target done : Bytes) (c : Byte) (msg : Bytes) :
    editHtml target (pending done) (c :: msg) =
      inserted target done c ++ c :: editHtml target (pending (done ++ [c])) msg := by
  rw [editHtml, inserted, pending, pending, quotesAtEnd_snoc]
  by_cases hquote : c = '"'
  · have hslash : c ≠ '/' := by
      rw [hquote]
      decide
    rw [if_pos hquote, if_pos hquote, if_neg fun hand => hslash hand.1, List.nil_append, hquote,
      List.replicate_succ']
  · rw [if_neg hquote, if_neg hquote]
    by_cases hslash : c = '/'
    · have hone : List.replicate (quotesAtEnd done) ('"' : Byte) ++ [c] = str "\"/" ↔
          quotesAtEnd done = 1 := by
        have hstr : str "\"/" = [('"' : Byte)] ++ [('/' : Byte)] := rfl
        rw [hslash, hstr, List.append_left_inj]
        refine ⟨fun heq => ?_, fun heq => by rw [heq]; rfl⟩
        have hlen := congrArg List.length heq
        rwa [List.length_replicate] at hlen
      rw [if_pos hslash]
      by_cases hrun : quotesAtEnd done = 1
      · rw [if_pos (hone.mpr hrun), if_pos ⟨hslash, hrun⟩, hslash, List.append_assoc]
        rfl
      · rw [if_neg fun heq => hrun (hone.mp heq), if_neg fun hand => hrun hand.2]
        rfl
    · rw [if_neg hslash, if_neg fun hand => hslash hand.1]
      rfl

/-! ## Where a page is edited -/

/-- The characters of a page, each with what is put before it. -/
def pieces (target msg : Bytes) : List (Bytes × Byte) :=
  msg.zipIdx.map fun p => (if AfterOneQuote msg p.2 then target else [], p.1)

/-- The edited page. -/
def join (ps : List (Bytes × Byte)) : Bytes := ps.flatMap fun p => p.1 ++ [p.2]

theorem inserted_eq (target done : Bytes) (c : Byte) (msg : Bytes) :
    inserted target done c =
      if AfterOneQuote (done ++ c :: msg) done.length then target else [] := by
  rw [inserted]
  refine if_congr ?_ rfl rfl
  rw [AfterOneQuote, List.take_left, List.getElem?_append_right (Nat.le_refl _), Nat.sub_self]
  simp

/-- **The loop invariant**: the rest of a page is edited by what stands before it. -/
theorem editHtml_pending (target done msg : Bytes) :
    editHtml target (pending done) msg = join ((msg.zipIdx done.length).map fun p =>
      (if AfterOneQuote (done ++ msg) p.2 then target else [], p.1)) := by
  induction msg generalizing done with
  | nil => rfl
  | cons c msg ih =>
    have happ : done ++ c :: msg = done ++ [c] ++ msg := by simp
    have hlen : (done ++ [c]).length = done.length + 1 := by simp
    rw [editHtml_cons, ih, hlen, ← happ, inserted_eq target done c msg, List.zipIdx_cons, List.map_cons,
      join, join, List.flatMap_cons, List.append_assoc]
    rfl

theorem parseHtmlBody_of_ne (haddr : h.serveAddr ≠ []) (msg : Bytes) :
    h.parseHtmlBody msg = some (editHtml (dropSlash h.serveAddr) [] msg) := by
  rw [parseHtmlBody]
  rcases hlast : h.serveAddr.getLast? with - | c
  · exact absurd (List.getLast?_eq_none_iff.mp hlast) haddr
  · by_cases hc : c = '/'
    · simp [dropSlash, hlast, hc]
    · simp [dropSlash, hlast, hc]

theorem map_snd_pieces (target msg : Bytes) : (pieces target msg).map Prod.snd = msg := by
  rw [pieces, List.map_map]
  exact List.zipIdx_map_fst 0 msg

/-- Nothing stands before any of the characters. -/
theorem join_eq_iff {ps : List (Bytes × Byte)} :
    join ps = ps.map Prod.snd ↔ ∀ p ∈ ps, p.1 = [] := by
  have hlength : ∀ qs : List (Bytes × Byte), qs.length ≤ (join qs).length := by
    intro qs
    induction qs with
    | nil => exact Nat.zero_le _
    | cons q qs ih =>
      rw [join, List.flatMap_cons, List.length_append, List.length_append, List.length_singleton,
        List.length_cons]
      rw [join] at ih
      omega
  induction ps with
  | nil => exact iff_of_true rfl fun _ h => absurd h List.not_mem_nil
  | cons p ps ih =>
    have hjoin : join (p :: ps) = p.1 ++ (p.2 :: join ps) := by
      rw [join, List.flatMap_cons, List.append_assoc]
      rfl
    refine Iff.trans ?_ (List.forall_mem_cons.trans (and_congr_right fun _ => ih.symm)).symm
    rw [hjoin, List.map_cons]
    constructor
    · intro heq
      -- what is longer than the page has something inserted
      have hlen := congrArg List.length heq
      have hrest := hlength ps
      rw [List.length_append, List.length_cons, List.length_cons, List.length_map] at hlen
      have hnil : p.1 = [] := List.eq_nil_of_length_eq_zero (by omega)
      rw [hnil, List.nil_append] at heq
      exact ⟨hnil, (List.cons.inj heq).2⟩
    · rintro ⟨hnil, heq⟩
      rw [hnil, heq, List.nil_append]

/-- **Which pages are left as they are**: those without a slash behind one quotation mark, where
there is a location to insert. -/
theorem parseHtmlBody_self_iff {out : Bytes} (hout : h.parseHtmlBody msg = some out) :
    out = msg ↔ dropSlash h.serveAddr = [] ∨ ∀ i, ¬ AfterOneQuote msg i := by
  have haddr : h.serveAddr ≠ [] := by
    intro hnil
    rw [parseHtmlBody, hnil] at hout
    cases hout
  rw [parseHtmlBody_of_ne haddr] at hout
  obtain rfl := Option.some.inj hout
  have hedit : editHtml (dropSlash h.serveAddr) [] msg = join (pieces (dropSlash h.serveAddr) msg) :=
    editHtml_pending _ [] msg
  have hself := @join_eq_iff (pieces (dropSlash h.serveAddr) msg)
  rw [map_snd_pieces] at hself
  rw [hedit, hself]
  constructor
  · intro hall
    by_contra hno
    rw [not_or, not_forall_not] at hno
    obtain ⟨htarget, i, hafter⟩ := hno
    obtain ⟨hlt, hget⟩ := List.getElem?_eq_some_iff.mp hafter.1
    have hmem : (msg[i], i) ∈ msg.zipIdx := List.mem_zipIdx_iff_getElem?.mpr (List.getElem?_eq_getElem hlt)
    have hnil := hall _ (List.mem_map.mpr ⟨_, hmem, rfl⟩)
    exact htarget ((if_pos hafter).symm.trans hnil)
  · intro hcond p hp
    obtain ⟨⟨c, i⟩, -, rfl⟩ := List.mem_map.mp hp
    rcases hcond with htarget | hno
    · dsimp only
      rw [htarget, ite_self]
    · exact if_neg (hno i)

/-- **What is inserted into a page**: the location before each slash that directly follows a run
of exactly one quotation mark, and nothing else; without that it is the page. -/
theorem parseHtmlBody_eq (haddr : h.serveAddr ≠ []) (msg : Bytes) :
    h.parseHtmlBody msg = some (join (pieces (dropSlash h.serveAddr) msg)) ∧
      (pieces (dropSlash h.serveAddr) msg).map Prod.snd = msg := by
  refine ⟨?_, map_snd_pieces _ _⟩
  rw [parseHtmlBody_of_ne haddr]
  exact congrArg some (editHtml_pending _ [] msg)

/-- The theorem at a page whose second slash follows two marks. -/
theorem parseHtmlBody_marks :
    parseHtmlBody ⟨str "/p/", []⟩ (str "\"/a\"\"/b") = some (str "\"/p/a\"\"/b") := by
  have h := (parseHtmlBody_eq (h := ⟨str "/p/", []⟩) (by decide) (str "\"/a\"\"/b")).1
  have hjoin : join (pieces (dropSlash (str "/p/")) (str "\"/a\"\"/b")) = str "\"/p/a\"\"/b" := by
    decide
  exact h.trans (congrArg some hjoin)

/-! ## Quotations -/

/-- A quotation mark with an even number of others before it. -/
def Opens (msg : Bytes) (j : Nat) : Prop :=
  msg[j]? = some ('"' : Byte) ∧ (msg.take j).count ('"' : Byte) % 2 = 0

/-- A quotation mark with an odd number of others before it. -/
def Closes (msg : Bytes) (j : Nat) : Prop :=
  msg[j]? = some ('"' : Byte) ∧ (msg.take j).count ('"' : Byte) % 2 = 1

/-- When the page has been read up to a character, the location is inserted before it. -/
def InsertsAt (h : ProxyHandler) (msg : Bytes) (i : Nat) : Prop :=
  ∃ out c, h.parseHtmlBody (msg.take i) = some out ∧ msg[i]? = some c ∧
    h.parseHtmlBody (msg.take (i + 1)) = some (out ++ dropSlash h.serveAddr ++ [c])

theorem editHtml_snoc (target done s : Bytes) (c : Byte) :
    editHtml target (pending done) (s ++ [c]) =
      editHtml target (pending done) s ++ (inserted target (done ++ s) c ++ [c]) := by
  induction s generalizing done with
  | nil =>
    rw [List.nil_append, editHtml_cons, List.append_nil]
    rfl
  | cons d s ih =>
    rw [List.cons_append, editHtml_cons, editHtml_cons, ih]
    simp

/-- The page grows by one character at a time. -/
theorem editHtml_read (target s : Bytes) (c : Byte) :
    editHtml target [] (s ++ [c]) = editHtml target [] s ++ (inserted target s c ++ [c]) :=
  editHtml_snoc target [] s c

theorem insertsAt_iff (htarget : dropSlash h.serveAddr ≠ []) (msg : Bytes) (i : Nat) :
    InsertsAt h msg i ↔ AfterOneQuote msg i := by
  have haddr : h.serveAddr ≠ [] := by
    intro hnil
    rw [hnil] at htarget
    exact htarget rfl
  rw [InsertsAt, AfterOneQuote]
  simp only [parseHtmlBody_of_ne haddr, Option.some.injEq]
  constructor
  · rintro ⟨out, c, rfl, hc, hnext⟩
    rw [List.take_add_one, hc, Option.toList_some, editHtml_read, List.append_assoc,
      List.append_cancel_left_eq, List.append_cancel_right_eq, inserted] at hnext
    split at hnext
    · next hand => exact ⟨hand.1 ▸ hc, hand.2⟩
    · exact absurd hnext.symm htarget
  · rintro ⟨hc, hone⟩
    refine ⟨_, '/', rfl, hc, ?_⟩
    rw [List.take_add_one, hc, Option.toList_some, editHtml_read, inserted, if_pos ⟨rfl, hone⟩,
      List.append_assoc]

/-- A single mark before a slash: none stands before the mark. -/
theorem afterOneQuote_succ {j : Nat} :
    AfterOneQuote msg (j + 1) ↔ msg[j + 1]? = some ('/' : Byte) ∧ msg[j]? = some ('"' : Byte) ∧
      ¬ ∃ k, j = k + 1 ∧ msg[k]? = some ('"' : Byte) := by
  have hnext : ∀ {k : Nat} {c : Byte}, msg[k]? = some c →
      quotesAtEnd (msg.take (k + 1)) = if c = '"' then quotesAtEnd (msg.take k) + 1 else 0 := by
    intro k c hc
    rw [List.take_add_one, hc, Option.toList_some, quotesAtEnd_snoc]
  have hzero : ∀ {c : Byte}, msg[j]? = some c → (quotesAtEnd (msg.take j) = 0 ↔
      ¬ ∃ k, j = k + 1 ∧ msg[k]? = some ('"' : Byte)) := by
    intro c hc
    rcases j with - | k
    · exact iff_of_true rfl fun ⟨k, hk, _⟩ => Nat.noConfusion hk
    · have hlt : k < msg.length := Nat.lt_of_succ_lt (List.getElem?_eq_some_iff.mp hc).1
      rw [hnext (List.getElem?_eq_getElem hlt)]
      simp [List.getElem?_eq_getElem hlt]
  rw [AfterOneQuote]
  refine and_congr_right fun hslash => ?_
  have hlt : j < msg.length := Nat.lt_of_succ_lt (List.getElem?_eq_some_iff.mp hslash).1
  have hj := List.getElem?_eq_getElem hlt
  rw [hnext hj, ← hzero hj, hj, Option.some.injEq]
  by_cases hquote : msg[j] = '"'
  · rw [if_pos hquote]
    simp [hquote]
  · rw [if_neg hquote]
    simp [hquote]

/-- **When insertions stand at the start of quotations only**: if no quotation that is not empty
is closed right before a slash. -/
theorem opens_iff (htarget : dropSlash h.serveAddr ≠ []) (msg : Bytes) :
    (∀ i, InsertsAt h msg i → ∃ j, i = j + 1 ∧ Opens msg j) ↔
      ∀ j, Closes msg j → msg[j + 1]? = some ('/' : Byte) →
        ∃ k, j = k + 1 ∧ msg[k]? = some ('"' : Byte) := by
  simp only [insertsAt_iff htarget]
  constructor
  · intro hopens j hcloses hslash
    by_contra hrun
    obtain ⟨j', hj, -, heven⟩ := hopens (j + 1) (afterOneQuote_succ.mpr ⟨hslash, hcloses.1, hrun⟩)
    obtain rfl := Nat.succ.inj hj
    exact absurd (hcloses.2.symm.trans heven) (by decide)
  · intro hcond i hafter
    rcases i with - | j
    · exact absurd hafter.2 Nat.zero_ne_one
    · obtain ⟨hslash, hquote, hrun⟩ := afterOneQuote_succ.mp hafter
      refine ⟨j, rfl, hquote, ?_⟩
      by_contra hodd
      exact hrun (hcond j ⟨hquote, by omega⟩ hslash)

/-- The theorem at a link. -/
theorem opens_link : InsertsAt ⟨str "/p", []⟩ (str "a=\"/b\"") 3 ∧
    ∃ j, 3 = j + 1 ∧ Opens (str "a=\"/b\"") j := by
  have hinserts : InsertsAt ⟨str "/p", []⟩ (str "a=\"/b\"") 3 :=
    ⟨str "a=\"", '/', by decide, by decide, by decide⟩
  refine ⟨hinserts, (opens_iff (by decide) _).mpr (fun j hcloses hslash => ?_) 3 hinserts⟩
  have hlt : j < (str "a=\"/b\"").length := (List.getElem?_eq_some_iff.mp hcloses.1).1
  have hall : ∀ j < (str "a=\"/b\"").length, Closes (str "a=\"/b\"") j →
      (str "a=\"/b\"")[j + 1]? ≠ some ('/' : Byte) := by
    unfold Closes
    decide
  exact absurd hslash (hall j hlt hcloses)

/-- In a tag that closes itself the location stands behind the value. -/
theorem not_opens_tag :
    ¬ ∀ (h : ProxyHandler) (msg : Bytes), dropSlash h.serveAddr ≠ [] →
      ∀ i, InsertsAt h msg i → ∃ j, i = j + 1 ∧ Opens msg j := by
  intro hall
  have hinserts : InsertsAt ⟨str "/p", []⟩ (str "<a b=\"c\"/>") 8 :=
    ⟨str "<a b=\"c\"", '/', by decide, by decide, by decide⟩
  obtain ⟨j, hj, hopens⟩ := hall ⟨str "/p", []⟩ (str "<a b=\"c\"/>") (by decide) 8 hinserts
  obtain rfl := Nat.succ.inj hj
  exact absurd hopens.2 (by decide)

end ProxyHandler

end LowKeyWebServer
