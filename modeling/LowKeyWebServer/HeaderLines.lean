import LowKeyWebServer.HeaderCase

/-!
# Reading one header line

What `header_callback` makes of the line of one field, against the value that the line has
(`decodes_iff`).
-/

namespace LowKeyWebServer

open Std

/-! ## Leading blanks -/

/-- A blank before the value of a field. -/
def isPadding (c : Byte) : Bool := c == ' ' || c == '\t'

/-- One blank, and then the value without any in front, up to the end of the line. -/
def PaddedOnce (value : Bytes) : Prop :=
  ∃ c rest, value = c :: rest ∧ isPadding c = true ∧ rest.dropWhile isPadding = rest ∧
    PlainValue rest

theorem ne_lineEnd_of_isPadding {c : Byte} (hc : isPadding c = true) : c ≠ '\r' ∧ c ≠ '\n' := by
  constructor
  · rintro rfl
    exact absurd hc (by decide)
  · rintro rfl
    exact absurd hc (by decide)

/-! ## The end of the line -/

theorem headerText_of_plain {value : Bytes} (hvalue : PlainValue value) (rest : Bytes) :
    headerText (value ++ rest) = value ++ headerText rest := by
  rw [headerText, List.takeWhile_append_of_pos]
  · rfl
  · intro c hc
    simp [hvalue c hc]

theorem headerText_crlf (value : Bytes) : headerText (value ++ crlf) = headerText value := by
  induction value with
  | nil => rfl
  | cons c value ih =>
    rw [headerText] at ih
    rw [List.cons_append, headerText, headerText, List.takeWhile_cons, List.takeWhile_cons, ih]
    rfl

/-- What stands before the end of the line is the value without leading blanks only if the value
has none, and is the whole line. -/
theorem headerText_eq_dropWhile {value : Bytes} :
    headerText value = value.dropWhile isPadding ↔
      value.dropWhile isPadding = value ∧ PlainValue value := by
  have hall : PlainValue value → headerText value = value := by
    intro hplain
    have happ := headerText_of_plain hplain []
    rw [List.append_nil] at happ
    exact happ.trans (List.append_nil value)
  constructor
  · intro heq
    have hplain : PlainValue value := by
      intro c hc
      rw [← List.takeWhile_append_dropWhile (p := isPadding) (l := value), List.mem_append] at hc
      rcases hc with hc | hc
      · exact ne_lineEnd_of_isPadding (List.all_eq_true.mp List.all_takeWhile c hc)
      · rw [← heq] at hc
        exact plainValue_headerText value c hc
    exact ⟨heq.symm.trans (hall hplain), hplain⟩
  · rintro ⟨hdrop, hplain⟩
    rw [hdrop, hall hplain]

/-- The value starts two characters after the name: exactly one of them is to be left out. -/
theorem drop_headerText_iff {value : Bytes} :
    headerText value ≠ [] ∧ (headerText value).drop 1 = value.dropWhile isPadding ↔
      PaddedOnce value := by
  constructor
  · rintro ⟨hne, heq⟩
    rcases value with - | ⟨c, rest⟩
    · exact absurd rfl hne
    · rw [headerText, List.takeWhile_cons] at hne heq
      split at hne
      · next hc =>
        rw [if_pos hc, List.drop_one, List.tail_cons, ← headerText] at heq
        cases hpad : isPadding c with
        | true =>
          rw [List.dropWhile_cons_of_pos hpad] at heq
          exact ⟨c, rest, rfl, hpad, headerText_eq_dropWhile.mp heq⟩
        | false =>
          -- the first character of the value is lost
          rw [List.dropWhile_cons_of_neg (by rw [hpad]; exact Bool.false_ne_true)] at heq
          have hle := (List.takeWhile_prefix (l := rest) fun c : Byte => c != '\r' && c != '\n').length_le
          rw [← headerText, heq, List.length_cons] at hle
          omega
      · exact absurd rfl hne
  · rintro ⟨c, rest, rfl, hpad, hdrop, hplain⟩
    have hc : PlainValue [c] := fun d hd => List.mem_singleton.mp hd ▸ ne_lineEnd_of_isPadding hpad
    have htext := headerText_of_plain hc rest
    rw [List.singleton_append] at htext
    rw [htext, List.dropWhile_cons_of_pos hpad]
    exact ⟨List.cons_ne_nil _ _, headerText_eq_dropWhile.mpr ⟨hdrop, hplain⟩⟩

/-! ## The callback -/

/-- The line adds the value under the name, and nothing else. -/
def Adds (headerMap : StringMap Bytes) (buffer name value : Bytes) : Prop :=
  ∃ headerMap', headerCallback headerMap buffer = some headerMap' ∧
    ∀ other : Bytes, headerMap'[other]? = if other = name then some value else headerMap[other]?

/-- The line of one field. -/
def fieldLine (name value : Bytes) : Bytes := name ++ str ":" ++ value ++ crlf

theorem headerCallback_fieldLine (headerMap : StringMap Bytes) {name : Bytes} (hname : PlainName name)
    (value : Bytes) :
    headerCallback headerMap (fieldLine name value) =
      if headerText value ≠ [] then some (headerMap.insertIfNew name ((headerText value).drop 1))
      else none := by
  have hline : fieldLine name value = name ++ str ":" ++ (value ++ crlf) := List.append_assoc ..
  rw [headerCallback_eq, hline, headerEntry_field hname, headerText_crlf]
  refine if_congr ?_ rfl rfl
  rw [hasValue_field hname, headerText_crlf]

theorem headerCallback_isSome_iff (headerMap : StringMap Bytes) (buffer : Bytes) :
    (headerCallback headerMap buffer).isSome = true ↔ HasValue buffer := by
  rw [headerCallback_eq]
  split
  · next hvalue => exact iff_of_true rfl hvalue
  · next hvalue => exact iff_of_false Bool.false_ne_true hvalue

theorem adds_iff {headerMap : StringMap Bytes} {name : Bytes} (hname : PlainName name)
    (hnew : name ∉ headerMap) (value : Bytes) :
    Adds headerMap (fieldLine name value) name (value.dropWhile isPadding) ↔ PaddedOnce value := by
  rw [Adds, headerCallback_fieldLine headerMap hname, ← drop_headerText_iff]
  constructor
  · rintro ⟨headerMap', hmap, hall⟩
    split at hmap
    · next hne =>
      obtain rfl := Option.some.inj hmap
      have hvalue := hall name
      rw [if_pos rfl, TreeMap.getElem?_insertIfNew, if_pos ⟨ReflCmp.compare_self, hnew⟩] at hvalue
      exact ⟨hne, Option.some.inj hvalue⟩
    · cases hmap
  · rintro ⟨hne, heq⟩
    rw [if_pos hne, heq]
    refine ⟨_, rfl, fun other => ?_⟩
    rw [TreeMap.getElem?_insertIfNew]
    by_cases hother : other = name
    · subst hother
      rw [if_pos ⟨ReflCmp.compare_self, hnew⟩, if_pos rfl]
    · rw [if_neg hother, if_neg fun h => hother (LawfulEqCmp.eq_of_compare h.1).symm]

/-- **When header lines are decoded safely and exactly**: a line throws nothing if something
follows its colon, and adds the value of its field if that has exactly one blank in front. -/
theorem decodes_iff (headerMap : StringMap Bytes) :
    (∀ buffer, (headerCallback headerMap buffer).isSome = true ↔ HasValue buffer) ∧
    ∀ name value, PlainName name → name ∉ headerMap →
      (Adds headerMap (fieldLine name value) name (value.dropWhile isPadding) ↔ PaddedOnce value) :=
  ⟨headerCallback_isSome_iff headerMap, fun _ value hname hnew => adds_iff hname hnew value⟩

/-- The theorem at a line as servers send it. -/
theorem decodes_server :
    (headerCallback ∅ (fieldLine (str "Server") (str " a"))).isSome = true ∧
      Adds ∅ (fieldLine (str "Server") (str " a")) (str "Server") (str "a") := by
  obtain ⟨hsome, hadds⟩ := decodes_iff ∅
  refine ⟨(hsome _).mpr (by decide), ?_⟩
  exact (hadds (str "Server") (str " a") (forall_mem_of_all (by decide))
    TreeMap.not_mem_emptyc).mpr ⟨' ', str "a", rfl, rfl, rfl, forall_mem_of_all (by decide)⟩

/-- An empty value throws, and the first character of a value without a blank is lost. -/
theorem not_decodes_empty :
    (¬ ∀ headerMap buffer, (headerCallback headerMap buffer).isSome = true) ∧
    ¬ ∀ (headerMap : StringMap Bytes) (name value : Bytes), PlainName name → name ∉ headerMap →
      Adds headerMap (fieldLine name value) name (value.dropWhile isPadding) := by
  constructor
  · intro hall
    exact absurd (hall ∅ (str "Server:")) (by decide)
  · intro hall
    obtain ⟨headerMap, hmap, hvalue⟩ := hall ∅ (str "Server") (str "a") (forall_mem_of_all (by decide))
      TreeMap.not_mem_emptyc
    have hlost : (headerCallback ∅ (fieldLine (str "Server") (str "a"))).map
        (fun m => m[str "Server"]?) = some (some []) := by decide
    rw [hmap, Option.map_some, hvalue, if_pos rfl] at hlost
    exact absurd hlost (by decide)

end LowKeyWebServer
