import LowKeyWebServer.BodyFraming
import LowKeyWebServer.CacheControlHeader

/-!
# The header lines of an upstream reply

`header_callback` is called for every line of every response in a redirect chain, and keeps
the first value of each name (`foldlM_headerCallback`, `getElem?_addAll`). `redirects_iff` is
the condition on a chain under which the headers that are relayed are those of its final
response.
-/

namespace LowKeyWebServer

open Std

/-! ## Lines and entries -/

/-- The line up to its end. -/
def headerText (buffer : Bytes) : Bytes := buffer.takeWhile fun c : Byte => c != '\r' && c != '\n'

/-- The name and the value of a header line; the value starts two characters after the name. -/
def headerEntry (buffer : Bytes) : Option (Bytes × Bytes) :=
  (find (str ":") (headerText buffer)).map fun colon =>
    ((headerText buffer).take colon, (headerText buffer).drop (colon + 2))

/-- Neither a colon nor the end of the line. -/
def PlainName (name : Bytes) : Prop := ∀ c ∈ name, c ≠ ':' ∧ c ≠ '\r' ∧ c ≠ '\n'

instance : DecidablePred PlainName := fun name => List.decidableBAll _ name

/-- No end of a line. -/
def PlainValue (value : Bytes) : Prop := ∀ c ∈ value, c ≠ '\r' ∧ c ≠ '\n'

instance : DecidablePred PlainValue := fun value => List.decidableBAll _ value

/-- A line that `header_callback` can take: something follows the colon. -/
def HasValue (buffer : Bytes) : Prop :=
  ∀ colon ∈ find (str ":") (headerText buffer), colon + 2 ≤ (headerText buffer).length

instance : DecidablePred HasValue := fun buffer => by unfold HasValue; infer_instance

/-- The entries of some lines. -/
def headerEntries (lines : List Bytes) : List (Bytes × Bytes) := lines.filterMap headerEntry

/-- `header_map->insert` for each entry in turn: an entry that is there stays. -/
def addAll (headerMap : StringMap Bytes) (entries : List (Bytes × Bytes)) : StringMap Bytes :=
  entries.foldl (fun m e => m.insertIfNew e.1 e.2) headerMap

theorem plainValue_headerText (buffer : Bytes) : PlainValue (headerText buffer) := by
  intro c hc
  have hplain := List.all_eq_true.mp (List.all_takeWhile (l := buffer)) c hc
  simpa using hplain

/-- What `header_callback` makes of a line has a plain name and a plain value. -/
theorem plain_headerEntry {buffer : Bytes} {e : Bytes × Bytes} (h : headerEntry buffer = some e) :
    PlainName e.1 ∧ PlainValue e.2 := by
  obtain ⟨colon, hfind, rfl⟩ := Option.map_eq_some_iff.mp h
  have hplain := plainValue_headerText buffer
  refine ⟨fun c hc => ⟨?_, hplain c (List.mem_of_mem_take hc)⟩, fun c hc => ?_⟩
  · rintro rfl
    exact (find_char_eq_some hfind).1 hc
  · exact hplain c (List.mem_of_mem_drop hc)

/-- The value of the first entry of a name. -/
def firstValue (entries : List (Bytes × Bytes)) (name : Bytes) : Option Bytes :=
  (entries.find? fun e => e.1 == name).map Prod.snd

theorem headerCallback_eq (headerMap : StringMap Bytes) (buffer : Bytes) :
    headerCallback headerMap buffer =
      if HasValue buffer then some (addAll headerMap (headerEntry buffer).toList) else none := by
  rw [headerCallback, headerEntry, ← headerText]
  rcases hfind : find (str ":") (headerText buffer) with - | colon
  · rw [if_pos (by simp [HasValue, hfind])]
    rfl
  · dsimp only
    by_cases hle : colon + 2 ≤ (headerText buffer).length
    · rw [substr, if_pos hle, if_pos (by simpa [HasValue, hfind] using hle)]
      rfl
    · rw [substr, if_neg hle, if_neg (by simpa [HasValue, hfind] using hle)]
      rfl

/-- **All lines of a reply**: the entries are added in turn, unless one has no value. -/
theorem foldlM_headerCallback (lines : List Bytes) (headerMap : StringMap Bytes) :
    lines.foldlM headerCallback headerMap =
      if ∀ line ∈ lines, HasValue line then some (addAll headerMap (headerEntries lines))
      else none := by
  induction lines generalizing headerMap with
  | nil => rw [if_pos (by simp)]; rfl
  | cons line lines ih =>
    rw [List.foldlM_cons, headerCallback_eq]
    by_cases hline : HasValue line
    · rw [if_pos hline, Option.bind_eq_bind, Option.bind_some, ih]
      refine if_congr (by simp [hline]) ?_ rfl
      rw [headerEntries, headerEntries, List.filterMap_cons]
      rcases headerEntry line with - | e <;> rfl
    · rw [if_neg hline, if_neg (by simp [hline])]
      rfl

theorem getElem?_addAll (headerMap : StringMap Bytes) (entries : List (Bytes × Bytes))
    (name : Bytes) :
    (addAll headerMap entries)[name]? = headerMap[name]?.or (firstValue entries name) := by
  induction entries generalizing headerMap with
  | nil => exact Option.or_none.symm
  | cons e entries ih =>
    refine (ih (headerMap.insertIfNew e.1 e.2)).trans ?_
    rw [TreeMap.getElem?_insertIfNew, firstValue, firstValue, List.find?_cons]
    by_cases hname : e.1 = name
    · subst hname
      by_cases hmem : e.1 ∈ headerMap <;> simp [hmem]
    · rw [beq_false_of_ne hname, if_neg (by simp [hname])]

/-- A map made from the entries has the first value of each name. -/
theorem getElem?_addAll_empty (entries : List (Bytes × Bytes)) (name : Bytes) :
    (addAll ∅ entries)[name]? = firstValue entries name := by
  rw [getElem?_addAll, TreeMap.getElem?_emptyc, Option.none_or]

theorem firstValue_append (entries more : List (Bytes × Bytes)) (name : Bytes) :
    firstValue (entries ++ more) name = (firstValue entries name).or (firstValue more name) := by
  rw [firstValue, List.find?_append, Option.map_or]
  rfl

theorem headerEntries_append (lines more : List Bytes) :
    headerEntries (lines ++ more) = headerEntries lines ++ headerEntries more :=
  List.filterMap_append

theorem firstValue_isSome_iff {entries : List (Bytes × Bytes)} {name : Bytes} :
    (firstValue entries name).isSome = true ↔ ∃ value, (name, value) ∈ entries := by
  rw [firstValue, Option.isSome_map, List.find?_isSome]
  constructor
  · rintro ⟨⟨n, value⟩, hmem, heq⟩
    obtain rfl : n = name := by simpa using heq
    exact ⟨value, hmem⟩
  · rintro ⟨value, hmem⟩
    exact ⟨(name, value), hmem, beq_self_eq_true name⟩

namespace ProxyHandler

/-! ## Fetched responses -/

/-- The fields that `handleRequest` sets or removes itself. -/
def OwnField (name : Bytes) : Prop :=
  name = str "Content-Length" ∨ name = str "Connection" ∨ name = str "Transfer-Encoding"

instance : DecidablePred OwnField := fun name => by unfold OwnField; infer_instance

/-- `header_data.find("Content-Type")`: the text that decides on the rewriting. -/
def testedType (lines : List Bytes) : Option Bytes :=
  ((lines.foldlM headerCallback ∅).getD ∅)[str "Content-Type"]?

theorem getElem?_fetchedHeaders (headerData : StringMap Bytes) (size : Nat) (name : Bytes) :
    (fetchedHeaders headerData size)[name]? =
      if name = str "Transfer-Encoding" then none
      else if name = str "Connection" then some (str "close")
      else if name = str "Content-Length" then some (str (toString size))
      else headerData[name]? := by
  rw [fetchedHeaders, TreeMap.getElem?_erase, TreeMap.getElem?_insert, TreeMap.getElem?_insert]
  simp only [LawfulEqCmp.compare_eq_iff_eq, @eq_comm _ name]

theorem getElem?_fetchedHeaders_of_not_own (headerData : StringMap Bytes) (size : Nat)
    {name : Bytes} (hname : ¬ OwnField name) :
    (fetchedHeaders headerData size)[name]? = headerData[name]? := by
  rw [OwnField, not_or, not_or] at hname
  rw [getElem?_fetchedHeaders, if_neg hname.2.2, if_neg hname.2.1, if_neg hname.1]

variable {h : ProxyHandler} {cache cache' : Cache} {clock : Clock} {upstream : Bytes → Upstream}
  {request : Request} {res : Response} {dest : Bytes} {code : Int} {msg : Bytes}

/-- Whether the body is rewritten as HTML. -/
def rewrites (lines : List Bytes) : Bool :=
  match testedType lines with
  | some contentType => contains (str "text/html") contentType
  | none => false

/-- **Fetching a reply**: the lines decide on the rewriting and on the headers. -/
theorem fetch_reply {lines : List Bytes} (hdest : h.destination request.uri = some dest)
    (hreply : upstream dest = .reply code lines msg) (hvalues : ∀ line ∈ lines, HasValue line) :
    h.fetch request.uri upstream =
      (if rewrites lines = true then h.parseHtmlBody msg else some msg).map fun edited =>
        { code, body := edited, srcType := 0,
          headers := fetchedHeaders (addAll ∅ (headerEntries lines)) edited.length } := by
  have hdata : lines.foldlM headerCallback ∅ = some (addAll ∅ (headerEntries lines)) := by
    rw [foldlM_headerCallback, if_pos hvalues]
  rw [fetch, hdest]
  dsimp only
  rw [hreply]
  dsimp only
  rw [rewrites, testedType, hdata, Option.getD_some]
  dsimp only
  rcases (addAll ∅ (headerEntries lines))[str "Content-Type"]? with - | contentType <;> rfl

/-- The response that was fetched is the one that `fetch` returns. -/
theorem fetch_of_fetched (hreq : h.handleRequest cache clock upstream request =
    some (.fetched res, cache')) : h.fetch request.uri upstream = some res := by
  obtain ⟨hdrs, hhdrs⟩ := exists_hdrs hreq
  rcases handleRequest_cases hhdrs hreq with ⟨page, heq, -⟩ | ⟨heq, -⟩ | ⟨res', heq, hres, -⟩
  · cases heq
  · cases heq
  · rw [hres, Answer.fetched.inj heq]

/-- A response made from a reply. -/
theorem fetched_reply {lines : List Bytes} (hdest : h.destination request.uri = some dest)
    (hreply : upstream dest = .reply code lines msg)
    (hreq : h.handleRequest cache clock upstream request = some (.fetched res, cache')) :
    (∀ line ∈ lines, HasValue line) ∧
      res.headers = fetchedHeaders (addAll ∅ (headerEntries lines)) res.body.length := by
  obtain ⟨dest', hdest', hcase⟩ := fetch_cases (fetch_of_fetched hreq)
  obtain rfl := Option.some.inj (hdest.symm.trans hdest')
  rcases hcase with ⟨lines', msg', headerData, hreply', hdata, hheaders⟩ | ⟨hno, -⟩
  · obtain ⟨-, rfl, -⟩ := Upstream.reply.inj (hreply.symm.trans hreply')
    rw [foldlM_headerCallback] at hdata
    obtain ⟨hvalues, hdata⟩ := Option.ite_none_right_eq_some.mp hdata
    exact ⟨hvalues, by rw [hheaders, ← Option.some.inj hdata]⟩
  · exact absurd hreply (hno _ _ _)

/-! ## The final response -/

/-- The line that begins a response. -/
def isStatusLine (line : Bytes) : Bool := (str "HTTP/").isPrefixOf line

/-- The header lines of the final response: those behind the last status line. -/
def finalHead : List Bytes → List Bytes
  | [] => []
  | line :: lines =>
    if lines.any isStatusLine then finalHead lines
    else if isStatusLine line then lines else line :: lines

/-- The value of a Content-Type field; the case of its name does not matter. -/
def contentTypeValue (line : Bytes) : Option Bytes :=
  (find (str ":") (headerText line)).bind fun colon =>
    if ((headerText line).take colon).map toLower = str "content-type" then
      some ((headerText line).drop (colon + 1))
    else none

/-- The media type of a Content-Type: the value up to its parameters, in lower case. -/
def mediaType (value : Bytes) : Bytes := (trim (value.takeWhile fun c : Byte => c != ';')).map toLower

/-- The Content-Type of the final response is `text/html`. -/
def IsHtml (lines : List Bytes) : Prop :=
  ((finalHead lines).findSome? contentTypeValue).map mediaType = some (str "text/html")

instance : DecidablePred IsHtml := fun lines => by unfold IsHtml; infer_instance

/-! ## Redirects -/

/-- The response relays the headers of the final response of a chain, and nothing else of it
decides on the rewriting. -/
def FromFinal (chain final : List Bytes) (res : Response) : Prop :=
  testedType chain = testedType final ∧ ∃ headerData : StringMap Bytes,
    final.foldlM headerCallback ∅ = some headerData ∧
      ∀ name : Bytes, ¬ OwnField name → res.headers[name]? = headerData[name]?

/-- Every field of an earlier response is in the final one, with the value that it has first. -/
def Repeated (hops : List (List Bytes)) (final : List Bytes) : Prop :=
  ∀ hop ∈ hops, ∀ line ∈ hop, ∀ e ∈ headerEntry line, ¬ OwnField e.1 →
    firstValue (headerEntries final) e.1 = firstValue (headerEntries hops.flatten) e.1

instance (hops : List (List Bytes)) (final : List Bytes) : Decidable (Repeated hops final) := by
  unfold Repeated
  infer_instance

theorem testedType_eq {lines : List Bytes} (hvalues : ∀ line ∈ lines, HasValue line) :
    testedType lines = firstValue (headerEntries lines) (str "Content-Type") := by
  rw [testedType, foldlM_headerCallback, if_pos hvalues, Option.getD_some, getElem?_addAll_empty]

/-- What is repeated is not changed by the earlier responses. -/
theorem Repeated.or_eq {hops : List (List Bytes)} {final : List Bytes} (hrep : Repeated hops final)
    {name : Bytes} (hname : ¬ OwnField name) :
    (firstValue (headerEntries hops.flatten) name).or (firstValue (headerEntries final) name) =
      firstValue (headerEntries final) name := by
  rcases hfirst : firstValue (headerEntries hops.flatten) name with - | value
  · exact Option.none_or
  · -- some earlier response carries the field
    obtain ⟨value', hmem⟩ := firstValue_isSome_iff.mp (Option.isSome_iff_exists.mpr ⟨_, hfirst⟩)
    obtain ⟨line, hline, he⟩ := List.mem_filterMap.mp hmem
    obtain ⟨hop, hhop, hline⟩ := List.mem_flatten.mp hline
    rw [hrep hop hhop line hline _ he hname, hfirst]
    rfl

/-- **Redirects**: when the headers are those of the final response only. -/
theorem redirects_iff {hops : List (List Bytes)} {final : List Bytes}
    (hdest : h.destination request.uri = some dest)
    (hreply : upstream dest = .reply code (hops.flatten ++ final) msg)
    (hreq : h.handleRequest cache clock upstream request = some (.fetched res, cache')) :
    FromFinal (hops.flatten ++ final) final res ↔ Repeated hops final := by
  obtain ⟨hvalues, hheaders⟩ := fetched_reply hdest hreply hreq
  have hfinal : ∀ line ∈ final, HasValue line := fun line hline =>
    hvalues line (List.mem_append_right _ hline)
  have hrelayed : ∀ name, ¬ OwnField name → res.headers[name]? =
      (firstValue (headerEntries hops.flatten) name).or (firstValue (headerEntries final) name) := by
    intro name hname
    rw [hheaders, getElem?_fetchedHeaders_of_not_own _ _ hname, getElem?_addAll_empty,
      headerEntries_append, firstValue_append]
  have hdata : final.foldlM headerCallback ∅ = some (addAll ∅ (headerEntries final)) := by
    rw [foldlM_headerCallback, if_pos hfinal]
  constructor
  · rintro ⟨-, headerData, hdata', hall⟩ hop hhop line hline e he hown
    obtain rfl := Option.some.inj (hdata.symm.trans hdata')
    have heq := hall e.1 hown
    rw [hrelayed e.1 hown, getElem?_addAll_empty] at heq
    have hmem : e ∈ headerEntries hops.flatten :=
      List.mem_filterMap.mpr ⟨line, List.mem_flatten.mpr ⟨hop, hhop, hline⟩, he⟩
    obtain ⟨value, hvalue⟩ := Option.isSome_iff_exists.mp
      (firstValue_isSome_iff.mpr ⟨e.2, hmem⟩)
    rw [hvalue, Option.some_or] at heq
    rw [← heq, hvalue]
  · intro hrep
    refine ⟨?_, _, hdata, fun name hname => ?_⟩
    · rw [testedType_eq hvalues, testedType_eq hfinal, headerEntries_append, firstValue_append,
        hrep.or_eq (by decide)]
    · rw [hrelayed name hname, hrep.or_eq hname, getElem?_addAll_empty]

/-- A request for one page without header fields. -/
def plainRequest : Request := ⟨.get, str "http://a/", ∅, [], str "HTTP/1.1"⟩

/-- The directives of a request that has none: the empty text is one. -/
def plainHdrs : StringMap Int := (∅ : StringMap Int).insert [] 1

theorem plainRequest_hdrs : parseCacheHdrs plainRequest.headers = some plainHdrs := by
  rw [parseCacheHdrs_eq]
  rfl

/-- It is fetched when nothing is in the cache. -/
theorem handleRequest_plain (clock : Clock) (hres : h.fetch plainRequest.uri upstream = some res) :
    ∃ cache', h.handleRequest ∅ clock upstream plainRequest = some (.fetched res, cache') := by
  have hd : cacheControl ∅ plainHdrs plainRequest.uri
      (decide (directive plainHdrs (str "no-cache") ≠ 0)) clock = _ :=
    cacheControl_none plainHdrs clock (Or.inr rfl)
  have hreq : h.handleRequest ∅ clock upstream plainRequest = _ :=
    handleRequest_fetch plainRequest_hdrs hd rfl rfl
  rw [hres] at hreq
  exact ⟨_, hreq⟩

theorem destination_plain (h : ProxyHandler) :
    h.destination plainRequest.uri = some plainRequest.uri := if_pos (by decide)

/-- The upstream redirects once: the lines of the two responses. -/
def redirectOnce (hop final : List Bytes) : Bytes → Upstream :=
  fun _ => .reply 200 ([hop].flatten ++ final) []

/-- The theorem at a redirect whose field the final response repeats. -/
theorem redirects_repeated :
    ∃ (res : Response) (cache' : Cache), handleRequest ⟨[], []⟩ ∅ ⟨0, 0, 0, 0⟩
        (redirectOnce [str "Server: a"] [str "Server: a"]) plainRequest =
          some (.fetched res, cache') ∧
      FromFinal ([[str "Server: a"]].flatten ++ [str "Server: a"]) [str "Server: a"] res := by
  obtain ⟨res, hres⟩ : ∃ res, fetch ⟨[], []⟩ plainRequest.uri
      (redirectOnce [str "Server: a"] [str "Server: a"]) = some res := ⟨_, rfl⟩
  obtain ⟨cache', hreq⟩ := handleRequest_plain ⟨0, 0, 0, 0⟩ hres
  have hreply : redirectOnce [str "Server: a"] [str "Server: a"] plainRequest.uri =
      .reply 200 ([[str "Server: a"]].flatten ++ [str "Server: a"]) [] := rfl
  exact ⟨res, cache', hreq, (redirects_iff (destination_plain _) hreply hreq).mpr (by decide)⟩

/-- The Location of a redirect is relayed. -/
theorem redirects_mixed :
    ¬ ∀ (h : ProxyHandler) (cache : Cache) (clock : Clock) (upstream : Bytes → Upstream)
      (request : Request) (dest : Bytes) (code : Int) (hops : List (List Bytes)) (final : List Bytes)
      (msg : Bytes) (res : Response) (cache' : Cache), h.destination request.uri = some dest →
      upstream dest = .reply code (hops.flatten ++ final) msg →
      h.handleRequest cache clock upstream request = some (.fetched res, cache') →
      FromFinal (hops.flatten ++ final) final res := by
  intro hall
  obtain ⟨res, hres⟩ : ∃ res, fetch ⟨[], []⟩ plainRequest.uri
      (redirectOnce [str "Location: /x"] []) = some res := ⟨_, rfl⟩
  obtain ⟨cache', hreq⟩ := handleRequest_plain ⟨0, 0, 0, 0⟩ hres
  have hreply : redirectOnce [str "Location: /x"] [] plainRequest.uri =
      .reply 200 ([[str "Location: /x"]].flatten ++ []) [] := rfl
  obtain ⟨-, headerData, hdata, hfinal⟩ :=
    hall _ _ _ _ _ _ _ _ _ _ _ _ (destination_plain _) hreply hreq
  obtain rfl : headerData = ∅ := (Option.some.inj hdata).symm
  have hlocation := hfinal (str "Location") (by decide)
  rw [(fetched_reply (destination_plain _) hreply hreq).2] at hlocation
  rw [getElem?_fetchedHeaders_of_not_own _ _ (by decide), getElem?_addAll_empty] at hlocation
  exact absurd hlocation (by decide)

end ProxyHandler

end LowKeyWebServer
