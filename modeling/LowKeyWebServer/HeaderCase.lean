import Mathlib.Data.List.Find
import Mathlib.Data.List.Forall2
import LowKeyWebServer.UpstreamHeaders

/-!
# The case of upstream header names

Two replies that differ only in the case of their field names, and what the proxy makes of
them. `recased_iff` is the condition under which it makes the same.
-/

namespace LowKeyWebServer

open Std

/-! ## Recased lines -/

/-- The name of a field, without its case. -/
def fieldOf (name : Bytes) : Bytes := name.map toLower

/-- Two header lines that are equal except for the case of the field's name. -/
inductive RecasedLine : Bytes → Bytes → Prop where
  | same (line : Bytes) : RecasedLine line line
  | field {name name' : Bytes} (rest : Bytes) (hcase : fieldOf name = fieldOf name')
      (hname : PlainName name) (hname' : PlainName name') :
      RecasedLine (name ++ str ":" ++ rest) (name' ++ str ":" ++ rest)

/-- Two entries that are equal except for the case of the name. -/
def SameField (e e' : Bytes × Bytes) : Prop := fieldOf e.1 = fieldOf e'.1 ∧ e.2 = e'.2

theorem headerText_field {name : Bytes} (hname : PlainName name) (rest : Bytes) :
    headerText (name ++ str ":" ++ rest) = name ++ ((':' : Byte) :: headerText rest) := by
  rw [headerText, List.append_assoc, List.takeWhile_append_of_pos]
  · rfl
  · intro c hc
    simp [(hname c hc).2]

theorem find_headerText {name : Bytes} (hname : PlainName name) (rest : Bytes) :
    find (str ":") (headerText (name ++ str ":" ++ rest)) = some name.length := by
  rw [headerText_field hname]
  exact find_char_append (fun hc => (hname _ hc).1 rfl) _

theorem headerEntry_field {name : Bytes} (hname : PlainName name) (rest : Bytes) :
    headerEntry (name ++ str ":" ++ rest) = some (name, (headerText rest).drop 1) := by
  rw [headerEntry, find_headerText hname, headerText_field hname]
  simp

theorem hasValue_field {name : Bytes} (hname : PlainName name) (rest : Bytes) :
    HasValue (name ++ str ":" ++ rest) ↔ headerText rest ≠ [] := by
  rw [HasValue, find_headerText hname, headerText_field hname, ← List.length_pos_iff]
  simp
  omega

theorem hasValue_recased {line line' : Bytes} (h : RecasedLine line line') :
    HasValue line ↔ HasValue line' := by
  cases h with
  | same => exact Iff.rfl
  | field rest _ hname hname' => rw [hasValue_field hname, hasValue_field hname']

theorem headerEntry_recased {line line' : Bytes} (h : RecasedLine line line') :
    Option.Rel SameField (headerEntry line) (headerEntry line') := by
  cases h with
  | same =>
    rcases headerEntry line with - | e
    · exact .none
    · exact .some ⟨rfl, rfl⟩
  | field rest hcase hname hname' =>
    rw [headerEntry_field hname, headerEntry_field hname']
    exact .some ⟨hcase, rfl⟩

theorem headerEntries_recased {lines lines' : List Bytes}
    (h : List.Forall₂ RecasedLine lines lines') :
    List.Forall₂ SameField (headerEntries lines) (headerEntries lines') :=
  List.rel_filterMap @headerEntry_recased h

theorem forall_hasValue_recased {lines lines' : List Bytes}
    (h : List.Forall₂ RecasedLine lines lines') :
    (∀ line ∈ lines, HasValue line) ↔ ∀ line ∈ lines', HasValue line := by
  induction h with
  | nil => exact Iff.rfl
  | cons hline _ ih => rw [List.forall_mem_cons, List.forall_mem_cons, hasValue_recased hline, ih]

/-- A search that does not look at the case finds the same entry. -/
theorem find?_recased {entries entries' : List (Bytes × Bytes)} {p : Bytes × Bytes → Bool}
    (h : List.Forall₂ SameField entries entries') (hp : ∀ e e', SameField e e' → p e = p e') :
    (entries.find? p = none ∧ entries'.find? p = none) ∨
      ∃ e e', entries.find? p = some e ∧ entries'.find? p = some e' ∧ SameField e e' := by
  induction h with
  | nil => exact Or.inl ⟨rfl, rfl⟩
  | @cons e e' _ _ he _ ih =>
    rw [List.find?_cons, List.find?_cons, hp e e' he]
    cases p e' with
    | true => exact Or.inr ⟨e, e', rfl, rfl, he⟩
    | false => exact ih

/-- In particular one that looks at the field. -/
theorem find?_field {entries entries' : List (Bytes × Bytes)}
    (h : List.Forall₂ SameField entries entries') (field : Bytes) :
    (entries.find? (fun e => fieldOf e.1 == field) = none ∧
      entries'.find? (fun e => fieldOf e.1 == field) = none) ∨
    ∃ e e', entries.find? (fun e => fieldOf e.1 == field) = some e ∧
      entries'.find? (fun e => fieldOf e.1 == field) = some e' ∧ SameField e e' :=
  find?_recased h fun e e' he => by rw [he.1]

/-! ## The fields of a response -/

/-- The field has the value, under some spelling of its name. -/
def HasField (headers : StringMap Bytes) (field value : Bytes) : Prop :=
  ∃ name : Bytes, fieldOf name = field ∧ headers[name]? = some value

/-- No field is present twice in different case. -/
def NoTwin (headers : StringMap Bytes) : Prop :=
  ∀ name ∈ headers, ∀ other ∈ headers, fieldOf name = fieldOf other → name = other

/-- The names in a response made from the entries: theirs, and those that `handleRequest` sets
or removes itself. -/
def Relayed (entries : List (Bytes × Bytes)) (name : Bytes) : Prop :=
  name = str "Content-Length" ∨ name = str "Connection" ∨
    (name ≠ str "Transfer-Encoding" ∧ ∃ e ∈ entries, e.1 = name)

/-- No field has two spellings among these names. -/
def OneCase (entries : List (Bytes × Bytes)) : Prop :=
  ∀ name other, Relayed entries name → Relayed entries other → fieldOf name = fieldOf other →
    name = other

/-- The value of a field's first entry that is not removed. -/
def keptValue (entries : List (Bytes × Bytes)) (field : Bytes) : Option Bytes :=
  (entries.find? fun e => fieldOf e.1 == field && e.1 != str "Transfer-Encoding").map Prod.snd

namespace ProxyHandler

variable {entries : List (Bytes × Bytes)} {size : Nat} {name : Bytes}

theorem mem_fetchedHeaders : name ∈ fetchedHeaders (addAll ∅ entries) size ↔ Relayed entries name := by
  rw [TreeMap.mem_iff_isSome_getElem?, getElem?_fetchedHeaders, getElem?_addAll_empty, Relayed]
  by_cases hencoding : name = str "Transfer-Encoding"
  · subst hencoding
    rw [if_pos rfl]
    refine iff_of_false (by decide) ?_
    rintro (hlen | hconn | ⟨hne, -⟩)
    · exact absurd hlen (by decide)
    · exact absurd hconn (by decide)
    · exact hne rfl
  · by_cases hconn : name = str "Connection"
    · rw [if_neg hencoding, if_pos hconn]
      exact iff_of_true rfl (Or.inr (Or.inl hconn))
    · by_cases hlen : name = str "Content-Length"
      · rw [if_neg hencoding, if_neg hconn, if_pos hlen]
        exact iff_of_true rfl (Or.inl hlen)
      · rw [if_neg hencoding, if_neg hconn, if_neg hlen, firstValue_isSome_iff]
        simp [hencoding, hconn, hlen]

theorem noTwin_iff : NoTwin (fetchedHeaders (addAll ∅ entries) size) ↔ OneCase entries := by
  simp only [NoTwin, OneCase, mem_fetchedHeaders]
  exact ⟨fun h n o hn ho => h n hn o ho, fun h n hn o ho => h n o hn ho⟩

/-- With one spelling for each field, looking for a name is looking for its field. -/
theorem firstValue_eq_keptValue (hone : OneCase entries) (hname : Relayed entries name)
    (hencoding : name ≠ str "Transfer-Encoding") :
    firstValue entries name = keptValue entries (fieldOf name) := by
  rw [firstValue, keptValue]
  congr 1
  refine List.find?_congr fun e he => ?_
  by_cases heq : e.1 = name
  · simp [heq, hencoding]
  · rw [beq_false_of_ne heq]
    symm
    rw [Bool.and_eq_false_iff]
    by_cases hremoved : e.1 = str "Transfer-Encoding"
    · exact Or.inr (by simp [hremoved])
    · refine Or.inl (beq_false_of_ne fun hfield => heq ?_)
      exact hone _ _ (Or.inr (Or.inr ⟨hremoved, e, he, rfl⟩)) hname hfield

/-- The value that a response made from the entries has for a field. -/
def fieldValue (entries : List (Bytes × Bytes)) (size : Nat) (field : Bytes) : Option Bytes :=
  if field = fieldOf (str "Content-Length") then some (str (toString size))
  else if field = fieldOf (str "Connection") then some (str "close")
  else keptValue entries field

theorem getElem?_relayed (hone : OneCase entries) (hname : Relayed entries name) :
    (fetchedHeaders (addAll ∅ entries) size)[name]? = fieldValue entries size (fieldOf name) := by
  rw [getElem?_fetchedHeaders, fieldValue]
  by_cases hlen : name = str "Content-Length"
  · rw [hlen, if_neg (by decide), if_neg (by decide), if_pos rfl, if_pos rfl]
  · by_cases hconn : name = str "Connection"
    · rw [hconn, if_neg (by decide), if_pos rfl, if_neg (by decide), if_pos rfl]
    · obtain ⟨hencoding, -⟩ := (hname.resolve_left hlen).resolve_left hconn
      -- a field that is spelled otherwise is another field
      have hlen' : fieldOf name ≠ fieldOf (str "Content-Length") :=
        fun heq => hlen (hone _ _ hname (Or.inl rfl) heq)
      have hconn' : fieldOf name ≠ fieldOf (str "Connection") :=
        fun heq => hconn (hone _ _ hname (Or.inr (Or.inl rfl)) heq)
      rw [if_neg hencoding, if_neg hconn, if_neg hlen, if_neg hlen', if_neg hconn',
        getElem?_addAll_empty, firstValue_eq_keptValue hone hname hencoding]

theorem exists_relayed {field value : Bytes} (h : fieldValue entries size field = some value) :
    ∃ name, Relayed entries name ∧ fieldOf name = field := by
  rw [fieldValue] at h
  by_cases hlen : field = fieldOf (str "Content-Length")
  · exact ⟨_, Or.inl rfl, hlen.symm⟩
  · by_cases hconn : field = fieldOf (str "Connection")
    · exact ⟨_, Or.inr (Or.inl rfl), hconn.symm⟩
    · rw [if_neg hlen, if_neg hconn] at h
      obtain ⟨e, he, -⟩ := Option.map_eq_some_iff.mp h
      have hkept := List.find?_some he
      obtain ⟨hfield, hencoding⟩ := Bool.and_eq_true_iff.mp hkept
      refine ⟨e.1, Or.inr (Or.inr ⟨?_, e, List.mem_of_find?_eq_some he, rfl⟩), eq_of_beq hfield⟩
      simpa using hencoding

/-- **The fields of a response** whose names have one spelling each. -/
theorem hasField_iff (hone : OneCase entries) (field value : Bytes) :
    HasField (fetchedHeaders (addAll ∅ entries) size) field value ↔
      fieldValue entries size field = some value := by
  constructor
  · rintro ⟨name, rfl, hvalue⟩
    have hname : Relayed entries name := by
      rw [← mem_fetchedHeaders, TreeMap.mem_iff_isSome_getElem?, hvalue]
      rfl
    rw [← getElem?_relayed hone hname, hvalue]
  · intro hvalue
    obtain ⟨name, hname, rfl⟩ := exists_relayed hvalue
    exact ⟨name, rfl, by rw [getElem?_relayed hone hname, hvalue]⟩

/-! ## Two replies -/

variable {entries' : List (Bytes × Bytes)} {lines lines' : List Bytes}

/-- The first entry that is a Content-Type in some spelling. -/
def firstType (entries : List (Bytes × Bytes)) : Option (Bytes × Bytes) :=
  entries.find? fun e => fieldOf e.1 == fieldOf (str "Content-Type")

/-- Where the first Content-Type is HTML, both replies spell it as `handleRequest` does, or
neither. -/
def SameType (entries entries' : List (Bytes × Bytes)) : Prop :=
  ∀ e ∈ firstType entries, ∀ e' ∈ firstType entries', contains (str "text/html") e.2 = true →
    (e.1 = str "Content-Type" ↔ e'.1 = str "Content-Type")

instance (entries entries' : List (Bytes × Bytes)) : Decidable (SameType entries entries') := by
  unfold SameType
  infer_instance

theorem keptValue_recased (h : List.Forall₂ SameField entries entries') {field : Bytes}
    (hfield : field ≠ fieldOf (str "Transfer-Encoding")) :
    keptValue entries field = keptValue entries' field := by
  have hother : ∀ name, (fieldOf name == field && name != str "Transfer-Encoding") =
      (fieldOf name == field) := by
    intro name
    by_cases hname : fieldOf name = field
    · have hne : name ≠ str "Transfer-Encoding" := fun heq => hfield (by rw [← hname, heq])
      simp [hname, hne]
    · rw [beq_false_of_ne hname, Bool.false_and]
  rw [keptValue, keptValue]
  simp only [hother]
  rcases find?_field h field with ⟨hn, hn'⟩ | ⟨e, e', he, he', hsame⟩
  · rw [hn, hn']
  · rw [he, he', Option.map_some, Option.map_some, hsame.2]

/-- The responses have the same fields if what is kept of Transfer-Encoding is the same. -/
theorem sameFields_iff (h : List.Forall₂ SameField entries entries') (hone : OneCase entries)
    (hone' : OneCase entries') (size : Nat) :
    (∀ field value, HasField (fetchedHeaders (addAll ∅ entries) size) field value ↔
        HasField (fetchedHeaders (addAll ∅ entries') size) field value) ↔
      keptValue entries (fieldOf (str "Transfer-Encoding")) =
        keptValue entries' (fieldOf (str "Transfer-Encoding")) := by
  simp only [hasField_iff hone, hasField_iff hone', fieldValue]
  constructor
  · intro hall
    ext value
    have hte := hall (fieldOf (str "Transfer-Encoding")) value
    rwa [if_neg (by decide), if_neg (by decide), if_neg (by decide), if_neg (by decide)] at hte
  · intro hkept field value
    have heq : keptValue entries field = keptValue entries' field := by
      by_cases hfield : field = fieldOf (str "Transfer-Encoding")
      · rw [hfield, hkept]
      · exact keptValue_recased h hfield
    rw [heq]

theorem rewrites_iff (hvalues : ∀ line ∈ lines, HasValue line) (hone : OneCase (headerEntries lines)) :
    rewrites lines = true ↔ ∃ e ∈ firstType (headerEntries lines),
      e.1 = str "Content-Type" ∧ contains (str "text/html") e.2 = true := by
  rw [rewrites, testedType_eq hvalues, firstValue]
  by_cases hmem : ∃ e ∈ headerEntries lines, e.1 = str "Content-Type"
  · have hsame : (headerEntries lines).find? (fun e => e.1 == str "Content-Type") =
        firstType (headerEntries lines) := by
      refine List.find?_congr fun e he => ?_
      by_cases heq : e.1 = str "Content-Type"
      · simp [heq]
      · rw [beq_false_of_ne heq, beq_false_of_ne fun hfield => ?_]
        refine heq (hone _ _ (Or.inr (Or.inr ⟨?_, e, he, rfl⟩))
          (Or.inr (Or.inr ⟨by decide, hmem⟩)) hfield)
        rintro hremoved
        rw [hremoved] at hfield
        exact absurd hfield (by decide)
    rw [hsame]
    rcases hfirst : firstType (headerEntries lines) with - | e
    · simp
    · have hname := List.find?_some (hsame.trans hfirst)
      simp [eq_of_beq hname]
  · have hnone : (headerEntries lines).find? (fun e => e.1 == str "Content-Type") = none := by
      rw [List.find?_eq_none]
      intro e he heq
      exact hmem ⟨e, he, eq_of_beq heq⟩
    rw [hnone]
    refine iff_of_false (by decide) ?_
    rintro ⟨e, he, hname, -⟩
    exact hmem ⟨e, List.mem_of_find?_eq_some he, hname⟩

theorem sameType_iff (h : List.Forall₂ RecasedLine lines lines') (hvalues : ∀ line ∈ lines, HasValue line)
    (hone : OneCase (headerEntries lines)) (hone' : OneCase (headerEntries lines')) :
    rewrites lines = rewrites lines' ↔ SameType (headerEntries lines) (headerEntries lines') := by
  rw [Bool.eq_iff_iff, rewrites_iff hvalues hone,
    rewrites_iff ((forall_hasValue_recased h).mp hvalues) hone', SameType]
  rcases find?_field (headerEntries_recased h) (fieldOf (str "Content-Type")) with
    ⟨hn, hn'⟩ | ⟨e, e', he, he', hsame⟩
  · rw [firstType, firstType, hn, hn']
    simp
  · rw [firstType, firstType, he, he']
    simp only [Option.mem_def, Option.some.injEq, exists_eq_left', forall_eq', hsame.2]
    tauto

/-- The proxy makes the same of two replies: the decision, the body, and the headers, up to the case
of their names. -/
structure SameUpToCase (lines lines' : List Bytes) (res res' : Response) : Prop where
  rewrites : rewrites lines = ProxyHandler.rewrites lines'
  body : res.body = res'.body
  fields : ∀ field value, HasField res.headers field value ↔ HasField res'.headers field value
  noTwin : NoTwin res.headers
  noTwin' : NoTwin res'.headers

/-- Each field has one spelling in either reply, and the three that are looked for by their
spelling are treated alike. -/
structure CaseBlind (entries entries' : List (Bytes × Bytes)) : Prop where
  oneCase : OneCase entries
  oneCase' : OneCase entries'
  sameType : SameType entries entries'
  sameEncoding : keptValue entries (fieldOf (str "Transfer-Encoding")) =
    keptValue entries' (fieldOf (str "Transfer-Encoding"))

variable {h : ProxyHandler} {cache cache₁ : Cache} {clock : Clock}
  {upstream upstream' : Bytes → Upstream} {request : Request} {res res' : Response} {dest : Bytes}
  {code : Int} {msg : Bytes}

/-- Whether a request is answered by fetching does not depend on the upstream. -/
theorem handleRequest_refetch (hreq : h.handleRequest cache clock upstream request =
    some (.fetched res, cache₁)) (hres : h.fetch request.uri upstream' = some res') :
    ∃ cache₂, h.handleRequest cache clock upstream' request = some (.fetched res', cache₂) := by
  obtain ⟨hdrs, hhdrs⟩ := exists_hdrs hreq
  rw [handleRequest, hhdrs] at hreq ⊢
  dsimp only at hreq ⊢
  split at hreq
  · obtain ⟨page, -, heq⟩ := Option.map_eq_some_iff.mp hreq
    cases heq
  · next huse =>
    split at hreq
    · cases hreq
    · next honly =>
      rw [if_neg huse, if_neg honly, hres]
      dsimp only
      split
      · exact ⟨_, rfl⟩
      · exact ⟨_, rfl⟩

/-- **Recased replies**: when the case of the names makes no difference. -/
theorem recased_iff (hlines : List.Forall₂ RecasedLine lines lines')
    (hdest : h.destination request.uri = some dest)
    (hreply : upstream dest = .reply code lines msg)
    (hreply' : upstream' dest = .reply code lines' msg)
    (hreq : h.handleRequest cache clock upstream request = some (.fetched res, cache₁)) :
    (∃ res' cache₂, h.handleRequest cache clock upstream' request = some (.fetched res', cache₂) ∧
        SameUpToCase lines lines' res res') ↔
      CaseBlind (headerEntries lines) (headerEntries lines') := by
  obtain ⟨hvalues, hheaders⟩ := fetched_reply hdest hreply hreq
  have hvalues' := (forall_hasValue_recased hlines).mp hvalues
  have hentries := headerEntries_recased hlines
  have hres := fetch_of_fetched hreq
  constructor
  · rintro ⟨res', cache₂, hreq', hsame⟩
    obtain ⟨-, hheaders'⟩ := fetched_reply hdest hreply' hreq'
    have hone : OneCase (headerEntries lines) := noTwin_iff.mp (hheaders ▸ hsame.noTwin)
    have hone' : OneCase (headerEntries lines') := noTwin_iff.mp (hheaders' ▸ hsame.noTwin')
    refine ⟨hone, hone', (sameType_iff hlines hvalues hone hone').mp hsame.rewrites, ?_⟩
    rw [← sameFields_iff hentries hone hone' res.body.length]
    have hfields := hsame.fields
    rwa [hheaders, hheaders', ← hsame.body] at hfields
  · intro hblind
    have hrewrites := (sameType_iff hlines hvalues hblind.oneCase hblind.oneCase').mpr hblind.sameType
    have hfetch := fetch_reply (h := h) hdest hreply hvalues
    have hfetch' := fetch_reply (h := h) hdest hreply' hvalues'
    rw [hres] at hfetch
    obtain ⟨edited, hedited, hmade⟩ := Option.map_eq_some_iff.mp hfetch.symm
    rw [← hrewrites, hedited, Option.map_some] at hfetch'
    obtain ⟨cache₂, hreq'⟩ := handleRequest_refetch hreq hfetch'
    subst hmade
    refine ⟨_, cache₂, hreq', hrewrites, rfl, ?_, noTwin_iff.mpr hblind.oneCase,
      noTwin_iff.mpr hblind.oneCase'⟩
    exact (sameFields_iff hentries hblind.oneCase hblind.oneCase' _).mpr hblind.sameEncoding

/-- The spellings of some entries, looked at one by one. -/
theorem oneCase_of_names (hnames : ∀ name ∈ str "Content-Length" :: str "Connection" :: entries.map Prod.fst,
    ∀ other ∈ str "Content-Length" :: str "Connection" :: entries.map Prod.fst,
      fieldOf name = fieldOf other → name = other) : OneCase entries := by
  have hmem : ∀ name, Relayed entries name →
      name ∈ str "Content-Length" :: str "Connection" :: entries.map Prod.fst := by
    rintro name (rfl | rfl | ⟨-, e, he, rfl⟩)
    · exact List.mem_cons_self
    · exact List.mem_cons_of_mem _ List.mem_cons_self
    · exact List.mem_cons_of_mem _ (List.mem_cons_of_mem _ (List.mem_map_of_mem he))
  exact fun name other hname hother => hnames name (hmem name hname) other (hmem other hother)

/-- The upstream replies with one header line. -/
def replyLine (line : Bytes) : Bytes → Upstream := fun _ => .reply 200 [line] []

/-- The theorem at a field that the proxy does not look for. -/
theorem recased_server :
    ∃ (res res' : Response) (cache₁ cache₂ : Cache),
      handleRequest ⟨[], []⟩ ∅ ⟨0, 0, 0, 0⟩ (replyLine (str "Server: a")) plainRequest =
        some (.fetched res, cache₁) ∧
      handleRequest ⟨[], []⟩ ∅ ⟨0, 0, 0, 0⟩ (replyLine (str "server: a")) plainRequest =
        some (.fetched res', cache₂) ∧
      SameUpToCase [str "Server: a"] [str "server: a"] res res' := by
  obtain ⟨res, hres⟩ : ∃ res, fetch ⟨[], []⟩ plainRequest.uri (replyLine (str "Server: a")) =
      some res := ⟨_, rfl⟩
  obtain ⟨cache₁, hreq⟩ := handleRequest_plain ⟨0, 0, 0, 0⟩ hres
  have hline : RecasedLine (str "Server" ++ str ":" ++ str " a") (str "server" ++ str ":" ++ str " a") :=
    .field _ (by decide) (by decide) (by decide)
  have hreply : replyLine (str "Server: a") plainRequest.uri = .reply 200 [str "Server: a"] [] := rfl
  have hreply' : replyLine (str "server: a") plainRequest.uri = .reply 200 [str "server: a"] [] := rfl
  have hblind : CaseBlind (headerEntries [str "Server: a"]) (headerEntries [str "server: a"]) :=
    ⟨oneCase_of_names (by decide), oneCase_of_names (by decide), by decide, by decide⟩
  obtain ⟨res', cache₂, hreq', hsame⟩ :=
    (recased_iff (.cons hline .nil) (destination_plain _) hreply hreply' hreq).mpr hblind
  exact ⟨res, res', cache₁, cache₂, hreq, hreq', hsame⟩

/-- A page whose type is given in lower case is not rewritten. -/
theorem recased_html :
    ¬ ∀ (h : ProxyHandler) (cache cache₁ : Cache) (clock : Clock) (upstream upstream' : Bytes → Upstream)
      (request : Request) (res : Response) (dest msg : Bytes) (code : Int) (lines lines' : List Bytes),
      List.Forall₂ RecasedLine lines lines' → h.destination request.uri = some dest →
      upstream dest = .reply code lines msg → upstream' dest = .reply code lines' msg →
      h.handleRequest cache clock upstream request = some (.fetched res, cache₁) →
      ∃ res' cache₂, h.handleRequest cache clock upstream' request = some (.fetched res', cache₂) ∧
        SameUpToCase lines lines' res res' := by
  intro hall
  obtain ⟨res, hres⟩ : ∃ res, fetch ⟨str "/p", []⟩ plainRequest.uri
      (replyLine (str "Content-Type: text/html")) = some res := ⟨_, rfl⟩
  obtain ⟨cache₁, hreq⟩ := handleRequest_plain ⟨0, 0, 0, 0⟩ hres
  have hline : RecasedLine (str "Content-Type" ++ str ":" ++ str " text/html")
      (str "content-type" ++ str ":" ++ str " text/html") := .field _ (by decide) (by decide) (by decide)
  obtain ⟨res', cache₂, -, hsame⟩ := hall _ _ _ _ (replyLine (str "Content-Type: text/html"))
    (replyLine (str "content-type: text/html")) _ _ _ [] 200 [str "Content-Type: text/html"]
    [str "content-type: text/html"] (.cons hline .nil) (destination_plain _) rfl rfl hreq
  exact absurd hsame.rewrites (by decide)

end ProxyHandler

end LowKeyWebServer
