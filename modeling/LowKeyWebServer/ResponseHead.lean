import LowKeyWebServer.Dispatcher

/-!
# Reading a response back

`decode` is what a client does with the bytes of a response: it cuts them at the first empty
line, and the head into its lines. It gives back the headers and the body if no header holds a
line end, and no name a colon (`decode_sent`); and that is so of every response (`head_run`).
-/

namespace LowKeyWebServer

open Std

/-! ## Clean headers -/

/-- No header holds a line end, and no name a colon. -/
def CleanHeaders (headers : StringMap Bytes) : Prop :=
  ∀ name value : Bytes, headers[name]? = some value → PlainName name ∧ PlainValue value

/-- The headers of the response are clean. -/
def Clean (res : Response) : Prop := CleanHeaders res.headers

theorem cleanHeaders_empty : CleanHeaders ∅ := by
  intro name value h
  simp at h

variable {headers : StringMap Bytes} {name value : Bytes}

theorem CleanHeaders.insert (h : CleanHeaders headers) (hname : PlainName name)
    (hvalue : PlainValue value) : CleanHeaders (headers.insert name value) := by
  intro name' value' hget
  rw [TreeMap.getElem?_insert] at hget
  split at hget
  · next heq =>
    obtain rfl := LawfulEqCmp.compare_eq_iff_eq.mp heq
    obtain rfl := Option.some.inj hget
    exact ⟨hname, hvalue⟩
  · exact h name' value' hget

theorem CleanHeaders.erase (h : CleanHeaders headers) : CleanHeaders (headers.erase name) := by
  intro name' value' hget
  rw [TreeMap.getElem?_erase] at hget
  split at hget
  · cases hget
  · exact h name' value' hget

/-- A decimal digit is an ordinary character. -/
theorem plain_of_isDigit {c : Char} (hc : c.isDigit = true) :
    c.toUInt8 ≠ ('\r' : Byte) ∧ c.toUInt8 ≠ ('\n' : Byte) := by
  rw [Char.isDigit, Bool.and_eq_true, decide_eq_true_eq, decide_eq_true_eq] at hc
  have hlow : 48 ≤ c.toNat := UInt32.le_iff_toNat_le.mp hc.1
  have hhigh : c.toNat ≤ 57 := UInt32.le_iff_toNat_le.mp hc.2
  have hval : c.toUInt8.toNat = c.toNat := by
    rw [Char.toUInt8, UInt32.toNat_toUInt8]
    change c.toNat % 2 ^ 8 = c.toNat
    omega
  refine ⟨fun heq => ?_, fun heq => ?_⟩
  · rw [heq] at hval
    exact absurd (hval ▸ hlow) (by decide)
  · rw [heq] at hval
    exact absurd (hval ▸ hlow) (by decide)

/-- A length in decimal. -/
theorem plainValue_length (n : Nat) : PlainValue (str (toString n)) := by
  intro c hc
  obtain ⟨d, hd, rfl⟩ := List.mem_map.mp hc
  have hdigits : d ∈ (Nat.repr n).toList := hd
  rw [Nat.toList_repr] at hdigits
  exact plain_of_isDigit (Nat.isDigit_of_mem_toDigits (by omega) (by omega) hdigits)

/-! ## The handlers' headers -/

theorem CleanHeaders.connection (h : CleanHeaders headers) :
    CleanHeaders (headers.insert (str "Connection") (str "close")) :=
  h.insert (by decide) (by decide)

theorem clean_plainTextResponse (text : Bytes) (code : Int) : Clean (plainTextResponse text code) :=
  ((cleanHeaders_empty.insert (by decide) (by decide)).insert (by decide)
    (plainValue_length _)).connection

theorem clean_noCache : Clean noCache :=
  (cleanHeaders_empty.insert (by decide) (by decide)).connection

namespace StaticFileHandler

theorem clean_fileNotFound : Clean fileNotFound :=
  ((cleanHeaders_empty.insert (by decide) (by decide)).insert (by decide)
    (plainValue_length _)).connection

theorem plainValue_contentType (srcType : Int) : PlainValue (contentType srcType) := by
  rw [contentType]
  split
  · decide
  · split <;> decide

theorem clean_getBinaryContent {fs : FileSystem} {filename : Bytes} {srcType : Int} {res : Response}
    (h : getBinaryContent fs filename srcType = some res) : Clean res := by
  have hok : ∀ image : Bytes, CleanHeaders ((((∅ : StringMap Bytes).insert (str "Content-type")
      (contentType srcType)).insert (str "Content-Length") (str (toString image.length))).insert
        (str "Connection") (str "close")) := fun image =>
    ((cleanHeaders_empty.insert (by decide) (plainValue_contentType srcType)).insert (by decide)
      (plainValue_length _)).connection
  rw [getBinaryContent] at h
  split at h
  · obtain rfl := Option.some.inj h
    exact hok _
  · cases h
  · obtain ⟨image, -, rfl⟩ := Option.map_eq_some_iff.mp h
    exact hok image
  · cases h
  · obtain rfl := Option.some.inj h
    exact clean_fileNotFound

theorem clean_formResponse {fs : FileSystem} {srcType : Int} {filePath : Bytes} {res : Response}
    (h : formResponse fs srcType filePath = some res) : Clean res := by
  have htext : ∀ body : Bytes, CleanHeaders (((∅ : StringMap Bytes).insert (str "Content-Type")
      (str "text/html; charset=UTF-8")).insert (str "Content-Length") (str (toString body.length))) :=
    fun body => (cleanHeaders_empty.insert (by decide) (by decide)).insert (by decide)
      (plainValue_length _)
  rw [formResponse] at h
  split at h
  · obtain rfl := Option.some.inj h
    exact ((cleanHeaders_empty.insert (by decide) (by decide)).insert (by decide)
      (by decide)).connection
  · split at h
    · split at h
      · obtain rfl := Option.some.inj h
        exact htext _
      · obtain rfl := Option.some.inj h
        exact htext []
      · obtain rfl := Option.some.inj h
        exact htext []
      · cases h
      · obtain rfl := Option.some.inj h
        exact clean_fileNotFound
    · cases h

theorem clean_handleRequest {locationToRoot : LocationToRoot} {fs : FileSystem} {request : Request}
    {res : Response} (h : handleRequest locationToRoot fs request = some res) : Clean res := by
  have h := answer_of_handleRequest h
  rw [answer] at h
  split at h
  · exact clean_getBinaryContent h
  · split at h
    · obtain rfl := Option.some.inj h
      exact clean_fileNotFound
    · dsimp only at h
      split at h
      · obtain rfl := Option.some.inj h
        exact clean_fileNotFound
      · exact clean_formResponse h

end StaticFileHandler

/-- What `header_callback` collects is clean, whatever the lines are. -/
theorem cleanHeaders_addAll (lines : List Bytes) : CleanHeaders (addAll ∅ (headerEntries lines)) := by
  intro name value h
  rw [getElem?_addAll_empty] at h
  obtain ⟨e, he, rfl⟩ := Option.map_eq_some_iff.mp h
  obtain ⟨line, -, hline⟩ := List.mem_filterMap.mp (List.mem_of_find?_eq_some he)
  have hname := List.find?_some he
  rw [beq_iff_eq] at hname
  subst hname
  exact plain_headerEntry hline

theorem ProxyHandler.clean_fetch {p : ProxyHandler} {uri : Bytes} {upstream : Bytes → Upstream}
    {res : Response} (h : p.fetch uri upstream = some res) : Clean res := by
  obtain ⟨dest, -, ⟨lines, msg, headerData, -, hdata, hheaders⟩ | ⟨-, -, hheaders⟩⟩ := fetch_cases h
  · rw [foldlM_headerCallback] at hdata
    obtain ⟨-, hdata⟩ := Option.ite_none_right_eq_some.mp hdata
    rw [Clean, hheaders, fetchedHeaders, ← Option.some.inj hdata]
    exact ((cleanHeaders_addAll lines).insert (by decide) (plainValue_length _)).connection.erase
  · rw [Clean, hheaders]
    exact cleanHeaders_empty

namespace Handler

variable {locationToRoot : StaticFileHandler.LocationToRoot} {s s' : History} {v : Visit}
  {res : Response}

theorem clean_proxied {p : ProxyHandler} (hs : s.PagesAre Clean)
    (h : proxied p s v = some (res, s')) : Clean res := by
  obtain ⟨⟨answer, cache'⟩, hreq, heq⟩ := Option.map_eq_some_iff.mp h
  obtain ⟨rfl, -⟩ := Prod.mk.inj heq
  rcases ProxyHandler.answer_cases hreq with ⟨-, -, page, rfl, hpage⟩ | ⟨-, -, rfl⟩ |
    ⟨-, -, res, rfl, hres⟩
  · exact hs _ _ hpage
  · exact clean_noCache
  · exact ProxyHandler.clean_fetch hres

/-- **Every handler's headers** are clean. -/
theorem clean_handleRequest {h : Handler} (hs : s.PagesAre Clean)
    (hreq : h.handleRequest locationToRoot s v = some (res, s')) : Clean res := by
  cases h with
  | static =>
    obtain ⟨res', hres, heq⟩ := Option.map_eq_some_iff.mp hreq
    obtain ⟨rfl, -⟩ := Prod.mk.inj heq
    exact StaticFileHandler.clean_handleRequest hres
  | proxy p => exact clean_proxied hs hreq
  | cache => exact clean_proxied hs hreq
  | echo | status | error | health =>
    obtain ⟨rfl, -⟩ := Prod.mk.inj (Option.some.inj hreq)
    exact clean_plainTextResponse _ _

end Handler

/-! ## Decoding -/

namespace Dispatcher

/-- The lines of a head: what stands between the line ends. -/
def splitLines (s : Bytes) : List Bytes :=
  match h : find crlf s with
  | some i =>
    have : (s.drop (i + 2)).length < s.length := length_drop_find_lt (by decide) h (by decide)
    s.take i :: splitLines (s.drop (i + 2))
  | none => [s]
  termination_by s.length

/-- A header line, cut at its first colon and blank. -/
def splitEntry (line : Bytes) : Option (Bytes × Bytes) :=
  (find (str ": ") line).map fun i => (line.take i, line.drop (i + 2))

/-- The status line, the headers and the body, cut at the first empty line. -/
def decode (bytes : Bytes) : Option (Bytes × List (Bytes × Bytes) × Bytes) :=
  match find (crlf ++ crlf) bytes with
  | none => none
  | some i =>
    match splitLines (bytes.take i) with
    | [] => none
    | status :: lines => (lines.mapM splitEntry).map fun entries => (status, entries, bytes.drop (i + 4))

/-- The status line of a code, without its end. -/
def statusText (code : Int) : Bytes := (toString code).takeWhile fun c : Byte => c != '\r'

/-- The lines of a response's head. -/
def headLines (response : Response) : List Bytes :=
  statusText response.code :: response.headers.toList.map fun header =>
    header.1 ++ str ": " ++ header.2

theorem toString_statusText (code : Int) :
    toString code = statusText code ++ crlf ∧ statusText code ≠ [] := by
  have hlines : ∀ code ∈ statusCodes,
      toString code = statusText code ++ crlf ∧ statusText code ≠ [] := by decide
  by_cases hcode : code ∈ statusCodes
  · exact hlines code hcode
  · rw [statusText, toString_default hcode]
    exact hlines 500 (by decide)

theorem cr_not_mem_statusText (code : Int) : ('\r' : Byte) ∉ statusText code := by
  intro hmem
  have := List.all_eq_true.mp List.all_takeWhile _ hmem
  simp at this

theorem head_eq (response : Response) :
    head response = crlf.intercalate (headLines response) ++ (crlf ++ crlf) := by
  have hjoin : ∀ (es : List (Bytes × Bytes)) (l : Bytes),
      l ++ (crlf ++ (es.flatMap (fun e => Utils.formatHeader e.1 e.2) ++ crlf)) =
        crlf.intercalate (l :: es.map fun e => e.1 ++ str ": " ++ e.2) ++ (crlf ++ crlf) := by
    intro es
    induction es with
    | nil => intro l; simp
    | cons e es ih =>
      intro l
      rw [List.map_cons, List.intercalate_cons_cons, List.flatMap_cons, List.append_assoc,
        List.append_assoc, List.append_assoc, ← ih, Utils.formatHeader]
      simp [List.append_assoc, crlf, str]
  rw [head, (toString_statusText response.code).1, headLines, ← hjoin]
  simp [Utils.formatEnd, crlf, str]

/-- A line end before another character is not an empty line. -/
theorem find_pass_crlf {x : Byte} (hx : x ≠ '\r') (s : Bytes) :
    find (crlf ++ crlf) (crlf ++ x :: s) = (find (crlf ++ crlf) (x :: s)).map (· + 2) := by
  have hfirst : ¬ (crlf ++ crlf).isPrefixOf (crlf ++ x :: s) = true := by
    rw [List.isPrefixOf_iff_prefix, List.prefix_append_right_inj]
    intro h
    exact hx (List.cons_prefix_cons.mp h).1.symm
  have hsecond : find (crlf ++ crlf) ([('\n' : Byte)] ++ x :: s) =
      (find (crlf ++ crlf) (x :: s)).map (· + 1) := find_skip (by decide) (x :: s)
  calc find (crlf ++ crlf) (crlf ++ x :: s)
      = (find (crlf ++ crlf) ([('\n' : Byte)] ++ x :: s)).map (· + 1) := if_neg hfirst
    _ = (find (crlf ++ crlf) (x :: s)).map (· + 2) := by
      rw [hsecond, Option.map_map]
      rfl

theorem intercalate_cons (sep l : Bytes) (ls : List Bytes) :
    ∃ t, sep.intercalate (l :: ls) = l ++ t := by
  rcases ls with - | ⟨l', ls⟩
  · exact ⟨[], by simp⟩
  · exact ⟨sep ++ sep.intercalate (l' :: ls), by rw [List.intercalate_cons_cons, List.append_assoc]⟩

/-- The first empty line is the one behind the lines. -/
theorem find_emptyLine {ls : List Bytes} (hne : ls ≠ [])
    (hls : ∀ l ∈ ls, l ≠ [] ∧ ('\r' : Byte) ∉ l) (rest : Bytes) :
    find (crlf ++ crlf) (crlf.intercalate ls ++ (crlf ++ crlf ++ rest)) =
      some (crlf.intercalate ls).length := by
  induction ls with
  | nil => exact absurd rfl hne
  | cons l ls ih =>
    have hl : ('\r' : Byte) ∉ l := (hls l List.mem_cons_self).2
    rcases ls with - | ⟨l', ls⟩
    · rw [List.intercalate_singleton]
      exact find_first hl rest
    · have hmore := fun x hx => hls x (List.mem_cons_of_mem l hx)
      have hrest := ih (List.cons_ne_nil l' ls) hmore
      -- the next line begins with a character of its own
      obtain ⟨hl', hcr⟩ := hmore l' List.mem_cons_self
      obtain ⟨x, t, rfl⟩ := List.exists_cons_of_ne_nil hl'
      obtain ⟨u, hu⟩ := intercalate_cons crlf (x :: t) ls
      have hx : x ≠ '\r' := fun heq => hcr (heq ▸ List.mem_cons_self)
      rw [List.intercalate_cons_cons, List.append_assoc, List.append_assoc]
      rw [hu] at hrest ⊢
      have hskip : ∀ s, find (crlf ++ crlf) (l ++ s) =
          (find (crlf ++ crlf) s).map (· + l.length) := fun s => find_skip hl s
      rw [List.cons_append, List.cons_append] at hrest
      rw [hskip, List.cons_append, List.cons_append, find_pass_crlf hx, hrest]
      simp only [Option.map_some, List.length_append, List.length_cons, crlf, List.length_nil]
      congr 1
      omega

theorem splitLines_some {s : Bytes} {i : Nat} (h : find crlf s = some i) :
    splitLines s = s.take i :: splitLines (s.drop (i + 2)) := by
  rw [splitLines]
  split
  · next j hj =>
    obtain rfl := Option.some.inj (h.symm.trans hj)
    rfl
  · next hnone =>
    rw [h] at hnone
    cases hnone

theorem splitLines_none {s : Bytes} (h : find crlf s = none) : splitLines s = [s] := by
  rw [splitLines]
  split
  · next j hj =>
    rw [h] at hj
    cases hj
  · rfl

/-- Lines without a carriage return are read back. -/
theorem splitLines_intercalate {ls : List Bytes} (hne : ls ≠ []) (hls : ∀ l ∈ ls, ('\r' : Byte) ∉ l) :
    splitLines (crlf.intercalate ls) = ls := by
  induction ls with
  | nil => exact absurd rfl hne
  | cons l ls ih =>
    have hl : ('\r' : Byte) ∉ l := hls l List.mem_cons_self
    rcases ls with - | ⟨l', ls⟩
    · have hnone : find crlf (l ++ []) = none := find_skip hl []
      rw [List.append_nil] at hnone
      rw [List.intercalate_singleton, splitLines_none hnone]
    · have hih := ih (List.cons_ne_nil l' ls) fun x hx => hls x (List.mem_cons_of_mem l hx)
      have hfind : find crlf (l ++ (crlf ++ crlf.intercalate (l' :: ls))) = some l.length :=
        find_first hl _
      rw [List.intercalate_cons_cons, List.append_assoc, splitLines_some hfind, List.take_left,
        ← List.drop_drop, List.drop_left]
      exact congrArg (l :: ·) hih

theorem splitEntry_line {name : Bytes} (hname : PlainName name) (value : Bytes) :
    splitEntry (name ++ str ": " ++ value) = some (name, value) := by
  have hcolon : (':' : Byte) ∉ name := fun h => (hname _ h).1 rfl
  have hfind : find (str ": ") (name ++ (str ": " ++ value)) = some name.length :=
    find_first hcolon value
  rw [splitEntry, List.append_assoc, hfind, Option.map_some, List.take_left, ← List.drop_drop,
    List.drop_left]
  rfl

theorem mapM_splitEntry {entries : List (Bytes × Bytes)} (h : ∀ e ∈ entries, PlainName e.1) :
    (entries.map fun e => e.1 ++ str ": " ++ e.2).mapM splitEntry = some entries := by
  induction entries with
  | nil => rfl
  | cons e entries ih =>
    rw [List.forall_mem_cons] at h
    rw [List.map_cons, List.mapM_cons, splitEntry_line h.1, ih h.2]
    rfl

/-- **Decoding** gives back the status line, one entry for each header, and the body. -/
theorem decode_sent {res : Response} (h : Clean res) :
    decode (sent res) = some (statusText res.code, res.headers.toList, res.body) := by
  have hentries : ∀ e ∈ res.headers.toList, PlainName e.1 ∧ PlainValue e.2 := by
    intro e he
    exact h e.1 e.2 (TreeMap.mem_toList_iff_getElem?_eq_some.mp he)
  have hlines : ∀ l ∈ headLines res, l ≠ [] ∧ ('\r' : Byte) ∉ l := by
    rw [headLines, List.forall_mem_cons]
    refine ⟨⟨(toString_statusText _).2, cr_not_mem_statusText _⟩, fun l hl => ?_⟩
    obtain ⟨e, he, rfl⟩ := List.mem_map.mp hl
    obtain ⟨hname, hvalue⟩ := hentries e he
    refine ⟨by simp [str], fun hcr => ?_⟩
    simp only [List.mem_append] at hcr
    rcases hcr with (hcr | hcr) | hcr
    · exact (hname _ hcr).2.1 rfl
    · exact absurd hcr (by decide)
    · exact (hvalue _ hcr).1 rfl
  have hne : headLines res ≠ [] := List.cons_ne_nil _ _
  have hfind := find_emptyLine hne hlines res.body
  have hsplit := splitLines_intercalate hne fun l hl => (hlines l hl).2
  rw [decode, sent_eq, head_eq, List.append_assoc, hfind]
  dsimp only
  rw [List.take_left, hsplit, ← List.drop_drop, List.drop_left, headLines]
  dsimp only
  rw [mapM_splitEntry fun e he => (hentries e he).1]
  rfl

end Dispatcher

namespace Site

open Dispatcher

theorem clean_visit (s : Site) (v : Visit) (res : Response) (s' : Site)
    (hs : s.history.PagesAre Clean) (hvisit : s.visit v = some (res, s')) : Clean res := by
  obtain ⟨h, -, hreq, -⟩ := visit_eq_some hvisit
  exact Handler.clean_handleRequest hs hreq

/-- **No response splitting**: in a run of any server, every response has clean headers, and its
bytes are decoded to its status line, its headers and its body. -/
theorem head_run (server : Server) (visits : List Visit) :
    ∀ e ∈ Machine.trace step (new server) visits, ∀ res s', e.1.visit e.2 = some (res, s') →
      Clean res ∧ decode (sent res) = some (statusText res.code, res.headers.toList, res.body) := by
  have hpages := pagesAre_trace (fun s v res s' hs hvisit _ => clean_visit s v res s' hs hvisit)
    server visits
  intro e he res s' hvisit
  have hclean := clean_visit e.1 e.2 res s' (hpages e he) hvisit
  exact ⟨hclean, decode_sent hclean⟩

/-- The theorem at the response to a request that only wants a cached page. -/
theorem head_run_onlyCached : Clean noCache ∧ decode (sent noCache) =
    some (statusText noCache.code, noCache.headers.toList, noCache.body) := by
  obtain ⟨s', hvisit⟩ := visit_onlyCached
  exact head_run cacheServer [onlyCached] _ List.mem_cons_self noCache s' hvisit

end Site

end LowKeyWebServer
