import Mathlib.Data.List.Induction
import Mathlib.Data.List.Nodup
import LowKeyWebServer.NumberText
import LowKeyWebServer.ProxyHandler

/-!
# The Cache-Control header

`parse_cache_hdrs` takes the directives between the commas one by one
(`parseCacheHdrs_eq`), the last one with a copy of the code for the others. As it is written, it
keeps its positions in an `int` (`runParseCacheHdrs`), which makes no difference where they are in
range (`runParseCacheDirs_of_inRange`).

* `runParseCacheHdrs_isSome_iff`: when it returns, in terms of the header's text;
* `readsBack_iff`: it reads back what a list of directives is rendered to.
-/

namespace LowKeyWebServer

open Std

/-! ## One directive -/

theorem contains_iff {pat s : Bytes} : contains pat s = true ↔ pat <:+: s := by
  rw [contains, Option.isSome_iff_ne_none]
  refine ⟨fun h => ?_, ?_⟩
  · obtain ⟨i, hi⟩ := Option.ne_none_iff_exists'.mp h
    obtain ⟨t, ht, -⟩ := find_eq_some hi
    exact ⟨_, t, ht.symm⟩
  · rintro ⟨u, t, rfl⟩ h
    exact find_eq_none h u t rfl

/-- The token is about `max-age`, `max-stale` or `min-fresh`. -/
def Aged (token : Bytes) : Prop :=
  str "max-age" <:+: token ∨ str "max-stale" <:+: token ∨ str "min-fresh" <:+: token

theorem aged_iff {token : Bytes} : (contains (str "max-age") token || contains (str "max-stale") token ||
    contains (str "min-fresh") token) = true ↔ Aged token := by
  simp only [Aged, Bool.or_eq_true, contains_iff, or_assoc]

instance : DecidablePred Aged := fun _ => decidable_of_iff _ aged_iff

/-- `given_val`: what follows the first equals sign, or all of it. -/
def givenVal (token : Bytes) : Bytes :=
  match find (str "=") token with
  | some i => token.drop (i + 1)
  | none => token

/-- `token.substr(0, token_pos)`. -/
def givenName (token : Bytes) : Bytes :=
  match find (str "=") token with
  | some i => token.take i
  | none => token

/-- The last character is no digit: the value is not converted. -/
def NoNumber (given : Bytes) : Prop := ∃ c ∈ given.getLast?, isDigit c = false

instance : DecidablePred NoNumber := fun given => Option.decidableExistsMem given.getLast?

theorem given_none {token : Bytes} (h : find (str "=") token = none) :
    givenVal token = token ∧ givenName token = token := by
  rw [givenVal, givenName, h]
  exact ⟨rfl, rfl⟩

theorem given_some {token : Bytes} {i : Nat} (h : find (str "=") token = some i) :
    givenVal token = token.drop (i + 1) ∧ givenName token = token.take i := by
  rw [givenVal, givenName, h]
  exact ⟨rfl, rfl⟩

theorem parseDirective_plain {token : Bytes} (h : ¬ Aged token) :
    parseDirective token = some (token, 1) := by
  rw [parseDirective, if_neg (aged_iff.not.mpr h)]

/-- The two branches of a directive with a value. -/
theorem parseGiven_eq (name given : Bytes) :
    (if (match given.getLast? with | some c => isDigit c | none => true) = true then
      (stoi given).map fun val => (name, val) else some (name, -1)) =
    if NoNumber given then some (name, -1) else (stoi given).map fun val => (name, val) := by
  by_cases hno : NoNumber given
  · rw [if_pos hno]
    obtain ⟨c, hlast, hc⟩ := hno
    rw [Option.mem_def.mp hlast]
    exact if_neg (by simp [hc])
  · rw [if_neg hno]
    rcases hlast : given.getLast? with - | c
    · exact if_pos rfl
    · refine if_pos ?_
      by_contra hc
      exact hno ⟨c, hlast, by simpa using hc⟩

theorem parseDirective_aged {token : Bytes} (h : Aged token) :
    parseDirective token = if NoNumber (givenVal token) then some (givenName token, -1)
      else (stoi (givenVal token)).map fun val => (givenName token, val) := by
  rw [parseDirective, if_pos (aged_iff.mpr h), givenVal, givenName]
  rcases find (str "=") token with - | i
  · exact parseGiven_eq token token
  · exact parseGiven_eq (token.take i) (token.drop (i + 1))

/-- A directive that `parse_cache_hdrs` can take: no age, no number, or a number that is an
`int`. -/
def Readable (token : Bytes) : Prop :=
  Aged token → ¬ NoNumber (givenVal token) → ∃ n, LeadingInt (givenVal token) n

theorem parseDirective_isSome_iff (token : Bytes) :
    (parseDirective token).isSome = true ↔ Readable token := by
  rw [Readable]
  by_cases haged : Aged token
  · rw [parseDirective_aged haged]
    by_cases hno : NoNumber (givenVal token)
    · rw [if_pos hno]
      exact iff_of_true rfl fun _ hnot => absurd hno hnot
    · rw [if_neg hno, Option.isSome_map, Option.isSome_iff_exists]
      simp only [stoi_eq_some_iff, haged, hno, not_false_eq_true, true_implies]
  · rw [parseDirective_plain haged]
    exact iff_of_true rfl fun h => absurd h haged

/-- The value of a directive is an `int`. -/
theorem parseDirective_range {token name : Bytes} {val : Int}
    (h : parseDirective token = some (name, val)) : -2 ^ 31 ≤ val ∧ val < 2 ^ 31 := by
  by_cases haged : Aged token
  · rw [parseDirective_aged haged] at h
    split at h
    · cases h
      decide
    · obtain ⟨n, hn, heq⟩ := Option.map_eq_some_iff.mp h
      cases heq
      obtain ⟨blanks, sign, digits, rest, -, -, -, -, -, -, hlow, hhigh⟩ := stoi_eq_some_iff.mp hn
      exact ⟨hlow, hhigh⟩
  · rw [parseDirective_plain haged] at h
    cases h
    decide

/-! ## The directives of a header -/

/-- The directives: what stands between the commas, trimmed. -/
def pieces (dirs : Bytes) : List Bytes := (dirs.splitOn (',' : Byte)).map trim

/-- `cache_hdrs[token] = val;` for each of them in turn. -/
def setAll (hdrs : StringMap Int) (vals : List (Bytes × Int)) : StringMap Int :=
  vals.foldl (fun m p => m.insert p.1 p.2) hdrs

theorem pieces_none {dirs : Bytes} (h : find (str ",") dirs = none) : pieces dirs = [trim dirs] := by
  have h : (',' : Byte) ∉ dirs := find_char_eq_none.mp h
  rw [pieces, List.splitOn_eq_singleton h]
  rfl

theorem length_behind_comma_lt {dirs : Bytes} {pos : Nat} (h : find (str ",") dirs = some pos) :
    (dirs.drop (pos + 1)).length < dirs.length := length_drop_find_lt (by decide) h Nat.one_pos

/-- Induction on a header: on what stands behind its first comma. -/
theorem comma_induction {P : Bytes → Prop} (last : ∀ dirs, find (str ",") dirs = none → P dirs)
    (next : ∀ dirs pos, find (str ",") dirs = some pos → P (dirs.drop (pos + 1)) → P dirs)
    (dirs : Bytes) : P dirs := by
  induction hn : dirs.length using Nat.strongRecOn generalizing dirs with
  | ind n ih =>
    rcases hpos : find (str ",") dirs with - | pos
    · exact last dirs hpos
    · exact next dirs pos hpos (ih _ (hn ▸ length_behind_comma_lt hpos) _ rfl)

theorem splitOn_some {dirs : Bytes} {pos : Nat} (h : find (str ",") dirs = some pos) :
    dirs.splitOn (',' : Byte) = dirs.take pos :: (dirs.drop (pos + 1)).splitOn (',' : Byte) := by
  have h : find [(',' : Byte)] dirs = some pos := h
  obtain ⟨hfirst, hsplit⟩ := find_char_eq_some h
  conv_lhs => rw [hsplit, List.splitOn_append_cons_self_of_not_mem hfirst]

theorem pieces_some {dirs : Bytes} {pos : Nat} (h : find (str ",") dirs = some pos) :
    pieces dirs = trim (dirs.take pos) :: pieces (dirs.drop (pos + 1)) := by
  rw [pieces, pieces, splitOn_some h, List.map_cons]

/-- The loop and the copy behind it take the pieces one by one. -/
theorem parseCacheDirs_eq (dirs : Bytes) (hdrs : StringMap Int) :
    parseCacheDirs dirs hdrs = ((pieces dirs).mapM parseDirective).map (setAll hdrs) := by
  induction dirs using comma_induction generalizing hdrs with
  | last dirs hnone =>
    rw [parseCacheDirs, pieces_none hnone, List.mapM_cons]
    split
    · next hpos => cases hnone.symm.trans hpos
    · rcases parseDirective (trim dirs) with - | ⟨token, val⟩ <;> rfl
  | next dirs pos hpos ih =>
    rw [parseCacheDirs, pieces_some hpos, List.mapM_cons]
    split
    · next hpos' =>
      obtain rfl := Option.some.inj (hpos.symm.trans hpos')
      rcases parseDirective (trim (dirs.take pos)) with - | ⟨token, val⟩
      · rfl
      · dsimp only
        rw [ih]
        rcases (pieces (dirs.drop (pos + 1))).mapM parseDirective with - | vals <;> rfl
    · next hnone => cases hpos.symm.trans hnone

theorem parseCacheHdrs_eq (headers : StringMap Bytes) :
    parseCacheHdrs headers =
      ((pieces (headers.getD (str "Cache-Control") [])).mapM parseDirective).map (setAll ∅) :=
  parseCacheDirs_eq _ _

theorem mapM_isSome_iff {α β : Type} (f : α → Option β) (l : List α) :
    (l.mapM f).isSome = true ↔ ∀ x ∈ l, (f x).isSome = true := by
  induction l with
  | nil => simp
  | cons x l ih =>
    rw [List.mapM_cons, List.forall_mem_cons, ← ih]
    rcases f x with - | y
    · simp
    · rcases l.mapM f with - | ys <;> simp

theorem exists_of_mem_mapM {α β : Type} {f : α → Option β} {l : List α} {ys : List β} {y : β}
    (h : l.mapM f = some ys) (hy : y ∈ ys) : ∃ x ∈ l, f x = some y := by
  induction l generalizing ys with
  | nil =>
    obtain rfl := Option.some.inj h
    cases hy
  | cons x l ih =>
    rw [List.mapM_cons] at h
    rcases hx : f x with - | y'
    · rw [hx] at h
      cases h
    · rcases hl : l.mapM f with - | ys'
      · rw [hx, hl] at h
        cases h
      · rw [hx, hl] at h
        obtain rfl := Option.some.inj h
        rcases List.mem_cons.mp hy with rfl | hmem
        · exact ⟨x, List.mem_cons_self, hx⟩
        · obtain ⟨z, hz, hfz⟩ := ih hl hmem
          exact ⟨z, List.mem_cons_of_mem _ hz, hfz⟩

theorem parseCacheHdrs_isSome_iff (headers : StringMap Bytes) :
    (parseCacheHdrs headers).isSome = true ↔
      ∀ token ∈ pieces (headers.getD (str "Cache-Control") []), Readable token := by
  rw [parseCacheHdrs_eq, Option.isSome_map, mapM_isSome_iff]
  exact forall₂_congr fun token _ => parseDirective_isSome_iff token

/-! ## Positions in an `int` -/

/-- One directive as it is written, with the position of the equals sign in an `int`. `none` is what
`substr` or `std::stoi` throws, or an `int` that overflows: the position plus one, or the counter
of the loop over the value. -/
def runParseDirective (token : Bytes) : Option (Bytes × Int) :=
  if contains (str "max-age") token || contains (str "max-stale") token ||
      contains (str "min-fresh") token then
    let tokenPos := findInt (str "=") token
    if tokenPos = 2 ^ 31 - 1 then none
    else
      match substr token (unsignedSize (tokenPos + 1)) with
      | none => none
      | some given =>
        let name := token.take (unsignedSize tokenPos)
        let isNum :=
          match given.getLast? with
          | some c => isDigit c
          | none => true
        if 2 ^ 31 ≤ given.length then none
        else if isNum then (stoi given).map fun val => (name, val)
        else some (name, -1)
  else some (token, 1)

theorem length_erase_lt {dirs : Bytes} (h : findInt (str ",") dirs ≠ -1) :
    (dirs.drop (unsignedSize (findInt (str ",") dirs) + 1)).length < dirs.length := by
  rcases dirs with - | ⟨c, dirs⟩
  · exact absurd rfl h
  · rw [List.length_drop, List.length_cons]
    omega

/-- The loop of `parse_cache_hdrs` as it is written, with the position of the comma in an `int`. -/
def runParseCacheDirs (dirs : Bytes) (hdrs : StringMap Int) : Option (StringMap Int) :=
  if h : findInt (str ",") dirs = -1 then
    (runParseDirective (trim dirs)).map fun (token, val) => hdrs.insert token val
  else
    have := length_erase_lt h
    match runParseDirective (trim (dirs.take (unsignedSize (findInt (str ",") dirs)))) with
    | some (token, val) =>
      runParseCacheDirs (dirs.drop (unsignedSize (findInt (str ",") dirs) + 1)) (hdrs.insert token val)
    | none => none
  termination_by dirs.length

/-- `ProxyHandler::parse_cache_hdrs`. -/
def runParseCacheHdrs (headers : StringMap Bytes) : Option (StringMap Int) :=
  runParseCacheDirs (headers.getD (str "Cache-Control") []) ∅

/-- The equals sign of a directive with a value, and the value, are in the range of `int`. -/
def ShortValue (token : Bytes) : Prop :=
  Aged token → (∀ i, find (str "=") token = some i → i + 1 < 2 ^ 31) ∧ (givenVal token).length < 2 ^ 31

/-- The commas, the equals signs and the values are in the range of `int`. -/
structure InRange (dirs : Bytes) : Prop where
  commas : ∀ piece ∈ (dirs.splitOn (',' : Byte)).dropLast, piece.length < 2 ^ 31
  values : ∀ token ∈ pieces dirs, ShortValue token

/-- The directives that the loop takes from less than 4 GiB: behind a comma that is out of range
nothing is left, and what stands before it and behind it is one directive. -/
def taken (dirs : Bytes) : List Bytes :=
  match h : find (str ",") dirs with
  | some pos =>
    if pos < 2 ^ 31 then trim (dirs.take pos) :: taken (dirs.drop (pos + 1)) else [trim dirs, []]
  | none => [trim dirs]
  termination_by dirs.length
  decreasing_by exact length_behind_comma_lt h

section

variable {dirs token : Bytes} {pos : Nat} {hdrs : StringMap Int}

theorem length_trim_le (s : Bytes) : (trim s).length ≤ s.length := by
  rw [trim, List.length_reverse]
  refine (List.length_dropWhile_le _ _).trans ?_
  rw [List.length_reverse]
  exact List.length_dropWhile_le _ _

theorem length_piece_le (dirs : Bytes) (pos : Nat) : (trim (dirs.take pos)).length ≤ dirs.length :=
  (length_trim_le _).trans (List.take_prefix pos dirs).length_le

theorem length_givenVal_le (token : Bytes) : (givenVal token).length ≤ token.length := by
  rw [givenVal]
  split
  · exact (List.drop_suffix _ _).length_le
  · exact Nat.le_refl _

theorem shortValue_of_length (h : token.length < 2 ^ 31) : ShortValue token := by
  refine fun _ => ⟨fun i hi => ?_, Nat.lt_of_le_of_lt (length_givenVal_le token) h⟩
  exact Nat.lt_of_le_of_lt (find_char_lt hi) h

theorem inRange_none (h : find (str ",") dirs = none) : InRange dirs ↔ ShortValue (trim dirs) := by
  have hno : (',' : Byte) ∉ dirs := find_char_eq_none.mp h
  refine ⟨fun hr => hr.values _ (pieces_none h ▸ List.mem_singleton_self _), fun hr => ⟨?_, ?_⟩⟩
  · rw [List.splitOn_eq_singleton hno]
    exact fun piece hp => absurd hp List.not_mem_nil
  · rw [pieces_none h]
    exact List.forall_mem_singleton.mpr hr

theorem inRange_some (h : find (str ",") dirs = some pos) :
    InRange dirs ↔ pos < 2 ^ 31 ∧ ShortValue (trim (dirs.take pos)) ∧ InRange (dirs.drop (pos + 1)) := by
  have hlen : (dirs.take pos).length = pos := by
    obtain ⟨t, -, hle⟩ := find_eq_some h
    exact List.length_take_of_le hle
  have hlast : (dirs.splitOn (',' : Byte)).dropLast =
      dirs.take pos :: ((dirs.drop (pos + 1)).splitOn (',' : Byte)).dropLast := by
    rw [splitOn_some h, List.dropLast_cons_of_ne_nil (List.splitOn_ne_nil _ _)]
  refine ⟨fun ⟨hcommas, hvalues⟩ => ?_, fun ⟨hpos, hvalue, hcommas, hvalues⟩ => ⟨?_, ?_⟩⟩
  · rw [hlast, List.forall_mem_cons, hlen] at hcommas
    rw [pieces_some h, List.forall_mem_cons] at hvalues
    exact ⟨hcommas.1, hvalues.1, hcommas.2, hvalues.2⟩
  · rw [hlast, List.forall_mem_cons, hlen]
    exact ⟨hpos, hcommas⟩
  · rw [pieces_some h, List.forall_mem_cons]
    exact ⟨hvalue, hvalues⟩

/-- Below 2 GiB everything is in range. -/
theorem inRange_of_length (h : dirs.length < 2 ^ 31) : InRange dirs := by
  induction dirs using comma_induction with
  | last dirs hnone =>
    exact (inRange_none hnone).mpr (shortValue_of_length (Nat.lt_of_le_of_lt (length_trim_le _) h))
  | next dirs pos hpos ih =>
    have hrest : (dirs.drop (pos + 1)).length < 2 ^ 31 := (length_behind_comma_lt hpos).trans h
    exact (inRange_some hpos).mpr ⟨(find_char_lt hpos).trans h,
      shortValue_of_length (Nat.lt_of_le_of_lt (length_piece_le dirs pos) h), ih hrest⟩

/-- A directive without a value, as it is written. -/
theorem runParseDirective_plain (h : ¬ Aged token) : runParseDirective token = some (token, 1) := by
  rw [runParseDirective, if_neg (aged_iff.not.mpr h)]

/-- **One directive** in range. -/
theorem runParseDirective_of_short (h : ShortValue token) :
    runParseDirective token = parseDirective token := by
  by_cases haged : Aged token
  · obtain ⟨hpos, hlen⟩ := h haged
    rw [runParseDirective, if_pos (aged_iff.mpr haged), parseDirective_aged haged]
    rcases hfind : find (str "=") token with - | i
    · obtain ⟨hval, hname⟩ := given_none hfind
      rw [hval] at hlen
      have hgiven : substr token (unsignedSize (-1 + 1)) = some token := if_pos (Nat.zero_le _)
      have hwhole : token.take (unsignedSize (-1)) = token :=
        List.take_of_length_le (by rw [unsignedSize_npos]; omega)
      rw [findInt_none hfind, if_neg (by decide), hval, hname]
      simp only [hgiven, hwhole, if_neg (Nat.not_le.mpr hlen)]
      exact parseGiven_eq token token
    · obtain ⟨hval, hname⟩ := given_some hfind
      rw [hval] at hlen
      have hi := hpos i hfind
      have hsize : unsignedSize ((i : Int) + 1) = i + 1 := unsignedSize_nat (n := i + 1) (by omega)
      have hgiven : substr token (i + 1) = some (token.drop (i + 1)) := if_pos (find_char_lt hfind)
      rw [findInt_some hfind (by omega), if_neg (by omega), hval, hname]
      simp only [hsize, hgiven, unsignedSize_nat (n := i) (by omega), if_neg (Nat.not_le.mpr hlen)]
      exact parseGiven_eq (token.take i) (token.drop (i + 1))
  · rw [runParseDirective_plain haged, parseDirective_plain haged]

/-- One that is not, below 4 GiB: `substr` throws, or an `int` overflows. -/
theorem runParseDirective_of_long (hlen : token.length < 2 ^ 32) (h : ¬ ShortValue token) :
    runParseDirective token = none := by
  rw [ShortValue, Classical.not_imp] at h
  obtain ⟨haged, h⟩ := h
  rw [runParseDirective, if_pos (aged_iff.mpr haged)]
  rcases hfind : find (str "=") token with - | i
  · have hlong : 2 ^ 31 ≤ token.length := by
      rw [(given_none hfind).1, hfind] at h
      simpa using h
    have hgiven : substr token (unsignedSize (-1 + 1)) = some token := if_pos (Nat.zero_le _)
    rw [findInt_none hfind, if_neg (by decide)]
    simp only [hgiven, if_pos hlong]
  · have hlt := find_char_lt hfind
    rcases Nat.lt_trichotomy (i + 1) (2 ^ 31) with hi | hi | hi
    · have hlong : 2 ^ 31 ≤ (token.drop (i + 1)).length := by
        rw [(given_some hfind).1] at h
        by_contra hshort
        exact h ⟨fun j hj => Option.some.inj (hfind.symm.trans hj) ▸ hi, Nat.not_le.mp hshort⟩
      have hsize : unsignedSize ((i : Int) + 1) = i + 1 := unsignedSize_nat (n := i + 1) (by omega)
      have hgiven : substr token (i + 1) = some (token.drop (i + 1)) := if_pos hlt
      rw [findInt_some hfind (by omega), if_neg (by omega)]
      simp only [hsize, hgiven, if_pos hlong]
    · rw [findInt_some hfind (by omega), if_pos (by omega)]
    · have hsize := le_unsignedSize (p := i - 2 ^ 32 + 1) (by omega) (by omega)
      have hthrow : substr token (unsignedSize (i - 2 ^ 32 + 1)) = none := if_neg (by omega)
      rw [findInt_wrap hfind (by omega) (by omega), if_neg (by omega), hthrow]

/-- Without a comma. -/
theorem runParseCacheDirs_none (h : findInt (str ",") dirs = -1) :
    runParseCacheDirs dirs hdrs =
      (runParseDirective (trim dirs)).map fun (token, val) => hdrs.insert token val := by
  rw [runParseCacheDirs, dif_pos h]

/-- Up to a comma. -/
theorem runParseCacheDirs_some {pos : Int} (h : findInt (str ",") dirs = pos) (hne : pos ≠ -1) :
    runParseCacheDirs dirs hdrs = (runParseDirective (trim (dirs.take (unsignedSize pos)))).bind
      fun (token, val) => runParseCacheDirs (dirs.drop (unsignedSize pos + 1)) (hdrs.insert token val) := by
  subst h
  rw [runParseCacheDirs, dif_neg hne]
  rcases runParseDirective (trim (dirs.take (unsignedSize (findInt (str ",") dirs)))) <;> rfl

/-- Nothing is left: that is the directive with the empty name. -/
theorem runParseCacheDirs_nil (hdrs : StringMap Int) :
    runParseCacheDirs [] hdrs = some (hdrs.insert [] 1) := by
  rw [runParseCacheDirs_none rfl]
  rfl

/-- **The loop** in range. -/
theorem runParseCacheDirs_of_inRange (h : InRange dirs) :
    runParseCacheDirs dirs hdrs = parseCacheDirs dirs hdrs := by
  rw [parseCacheDirs_eq]
  induction dirs using comma_induction generalizing hdrs with
  | last dirs hnone =>
    rw [runParseCacheDirs_none (findInt_none hnone), pieces_none hnone, List.mapM_cons,
      runParseDirective_of_short ((inRange_none hnone).mp h)]
    rcases parseDirective (trim dirs) with - | ⟨token, val⟩ <;> rfl
  | next dirs pos hpos ih =>
    obtain ⟨hlt, hvalue, hrest⟩ := (inRange_some hpos).mp h
    rw [runParseCacheDirs_some (findInt_some hpos hlt) (by omega), unsignedSize_nat (by omega),
      runParseDirective_of_short hvalue, pieces_some hpos, List.mapM_cons]
    rcases parseDirective (trim (dirs.take pos)) with - | ⟨token, val⟩
    · rfl
    · rw [Option.bind_some]
      dsimp only
      rw [ih hrest]
      rcases (pieces (dirs.drop (pos + 1))).mapM parseDirective with - | vals <;> rfl

/-- **The loop** at a comma that is out of range, below 4 GiB: one more directive, and nothing is left. -/
theorem runParseCacheDirs_of_long (hpos : find (str ",") dirs = some pos) (hle : 2 ^ 31 ≤ pos)
    (hlen : dirs.length < 2 ^ 32) :
    runParseCacheDirs dirs hdrs = (runParseDirective (trim dirs)).map
      fun (token, val) => (hdrs.insert token val).insert [] 1 := by
  have hlt := find_char_lt hpos
  have hsize := le_unsignedSize (p := pos - 2 ^ 32) (by omega) (by omega)
  rw [runParseCacheDirs_some (findInt_wrap hpos hle (by omega)) (by omega),
    List.take_of_length_le (by omega), List.drop_of_length_le (by omega)]
  rcases runParseDirective (trim dirs) with - | ⟨token, val⟩
  · rfl
  · exact runParseCacheDirs_nil _

/-- **The loop** out of range, below 4 GiB: it throws, or leaves a directive with the empty name. -/
theorem getElem?_of_not_inRange (hlen : dirs.length < 2 ^ 32) (h : ¬ InRange dirs)
    {m : StringMap Int} (hrun : runParseCacheDirs dirs hdrs = some m) : m[([] : Bytes)]? = some 1 := by
  induction dirs using comma_induction generalizing hdrs with
  | last dirs hnone =>
    have hlong := runParseDirective_of_long (Nat.lt_of_le_of_lt (length_trim_le dirs) hlen)
      ((inRange_none hnone).not.mp h)
    rw [runParseCacheDirs_none (findInt_none hnone), hlong] at hrun
    cases hrun
  | next dirs pos hpos ih =>
    rcases Nat.lt_or_ge pos (2 ^ 31) with hlt | hle
    · rw [runParseCacheDirs_some (findInt_some hpos hlt) (by omega), unsignedSize_nat (by omega)] at hrun
      obtain ⟨⟨token, val⟩, hdir, hrun⟩ := Option.bind_eq_some_iff.mp hrun
      have hvalue : ShortValue (trim (dirs.take pos)) := by
        by_contra hvalue
        rw [runParseDirective_of_long (Nat.lt_of_le_of_lt (length_piece_le dirs pos) hlen) hvalue] at hdir
        cases hdir
      have hrest : ¬ InRange (dirs.drop (pos + 1)) := fun hrest =>
        h ((inRange_some hpos).mpr ⟨hlt, hvalue, hrest⟩)
      exact ih ((length_behind_comma_lt hpos).trans hlen) hrest hrun
    · rw [runParseCacheDirs_of_long hpos hle hlen] at hrun
      obtain ⟨⟨token, val⟩, -, rfl⟩ := Option.map_eq_some_iff.mp hrun
      exact TreeMap.getElem?_insert_self

/-! ### When it returns -/

theorem runParseDirective_isSome_iff (hlen : token.length < 2 ^ 32) :
    (runParseDirective token).isSome = true ↔ ShortValue token ∧ Readable token := by
  by_cases hvalue : ShortValue token
  · rw [runParseDirective_of_short hvalue, parseDirective_isSome_iff, and_iff_right hvalue]
  · rw [runParseDirective_of_long hlen hvalue]
    exact iff_of_false Bool.noConfusion fun h => hvalue h.1

theorem taken_none (h : find (str ",") dirs = none) : taken dirs = [trim dirs] := by
  rw [taken]
  split
  · next hpos => cases h.symm.trans hpos
  · rfl

theorem taken_some (h : find (str ",") dirs = some pos) :
    taken dirs = if pos < 2 ^ 31 then trim (dirs.take pos) :: taken (dirs.drop (pos + 1))
      else [trim dirs, []] := by
  rw [taken]
  split
  · next hpos =>
    obtain rfl := Option.some.inj (h.symm.trans hpos)
    rfl
  · next hnone => cases h.symm.trans hnone

/-- The empty directive can be taken. -/
theorem readable_nil : ShortValue [] ∧ Readable [] :=
  (runParseDirective_isSome_iff (by decide)).mp rfl

/-- **The loop** below 4 GiB. -/
theorem runParseCacheDirs_isSome_iff (hlen : dirs.length < 2 ^ 32) :
    (runParseCacheDirs dirs hdrs).isSome = true ↔
      ∀ token ∈ taken dirs, ShortValue token ∧ Readable token := by
  have htrim : (trim dirs).length < 2 ^ 32 := Nat.lt_of_le_of_lt (length_trim_le dirs) hlen
  induction dirs using comma_induction generalizing hdrs with
  | last dirs hnone =>
    rw [runParseCacheDirs_none (findInt_none hnone), Option.isSome_map,
      runParseDirective_isSome_iff htrim, taken_none hnone, List.forall_mem_singleton]
  | next dirs pos hpos ih =>
    rw [taken_some hpos]
    rcases Nat.lt_or_ge pos (2 ^ 31) with hlt | hle
    · have hrest : (dirs.drop (pos + 1)).length < 2 ^ 32 := (length_behind_comma_lt hpos).trans hlen
      have hpiece : (trim (dirs.take pos)).length < 2 ^ 32 :=
        Nat.lt_of_le_of_lt (length_piece_le dirs pos) hlen
      rw [if_pos hlt, List.forall_mem_cons, ← runParseDirective_isSome_iff hpiece,
        runParseCacheDirs_some (findInt_some hpos hlt) (by omega), unsignedSize_nat (by omega)]
      rcases runParseDirective (trim (dirs.take pos)) with - | ⟨token, val⟩
      · exact iff_of_false Bool.noConfusion fun h => Bool.noConfusion h.1
      · exact (ih hrest (Nat.lt_of_le_of_lt (length_trim_le _) hrest)).trans (and_iff_right rfl).symm
    · rw [if_neg (Nat.not_lt.mpr hle), List.forall_mem_cons, List.forall_mem_singleton,
        runParseCacheDirs_of_long hpos hle hlen, Option.isSome_map, runParseDirective_isSome_iff htrim,
        and_iff_left readable_nil]

end

/-- **When `parse_cache_hdrs` returns**: where the header is in range, exactly if every directive of it
is readable, and below 4 GiB exactly if every directive that the loop takes is in range and readable. -/
theorem runParseCacheHdrs_isSome_iff (headers : StringMap Bytes) :
    (InRange (headers.getD (str "Cache-Control") []) →
      ((runParseCacheHdrs headers).isSome = true ↔
        ∀ token ∈ pieces (headers.getD (str "Cache-Control") []), Readable token)) ∧
    ((headers.getD (str "Cache-Control") []).length < 2 ^ 32 →
      ((runParseCacheHdrs headers).isSome = true ↔
        ∀ token ∈ taken (headers.getD (str "Cache-Control") []), ShortValue token ∧ Readable token)) := by
  refine ⟨fun h => ?_, fun hlen => runParseCacheDirs_isSome_iff hlen⟩
  rw [runParseCacheHdrs, runParseCacheDirs_of_inRange h]
  exact parseCacheHdrs_isSome_iff headers


/-- `Cache-Control: max-age=` has nothing to convert. -/
theorem parseCacheHdrs_throws :
    ¬ ∀ headers : StringMap Bytes, (runParseCacheHdrs headers).isSome = true := by
  intro hall
  have h := hall ((∅ : StringMap Bytes).insert (str "Cache-Control") (str "max-age="))
  rw [runParseCacheHdrs, TreeMap.getD_insert_self,
    runParseCacheDirs_of_inRange (inRange_of_length (by decide)), parseCacheDirs_eq] at h
  exact absurd h (by decide)

/-! ## Rendered directives -/

/-- A directive that is only a name. -/
structure BareName : Type where
  name : Bytes
  ne_nil : name ≠ []
  noComma : (',' : Byte) ∉ name
  head : ∀ c ∈ name.head?, isSpace c = false
  last : ∀ c ∈ name.getLast?, isSpace c = false
  plain : ¬ Aged name

/-- The directives with a value. -/
inductive AgeName : Type where
  | maxAge | maxStale | minFresh
  deriving DecidableEq

def AgeName.text : AgeName → Bytes
  | maxAge => str "max-age"
  | maxStale => str "max-stale"
  | minFresh => str "min-fresh"

/-- A decimal string whose value is an `int`. -/
structure Number : Type where
  digits : Bytes
  ne_nil : digits ≠ []
  isDigit : ∀ c ∈ digits, isDigit c = true
  le_max : decimal digits ≤ 2147483647

/-- A Cache-Control directive. -/
inductive Directive : Type where
  | bare (name : BareName)
  | aged (name : AgeName) (n : Number)

namespace Directive

def name : Directive → Bytes
  | bare name => name.name
  | aged name _ => name.text

def value : Directive → Int
  | bare _ => 1
  | aged _ n => decimal n.digits

def text : Directive → Bytes
  | bare name => name.name
  | aged name n => name.text ++ str "=" ++ n.digits

end Directive

/-- A directive between blanks. -/
structure Padded : Type where
  before : Bytes
  directive : Directive
  after : Bytes
  blankBefore : ∀ c ∈ before, isSpace c = true
  blankAfter : ∀ c ∈ after, isSpace c = true

def Padded.text (p : Padded) : Bytes := p.before ++ (p.directive.text ++ p.after)

/-- The header: the directives, joined by commas. -/
def render (ds : List Padded) : Bytes := [(',' : Byte)].intercalate (ds.map Padded.text)

/-- Blanks around a text that has none at its ends are trimmed. -/
theorem trim_pad {before s after : Bytes} (hs : s ≠ [])
    (hbefore : ∀ c ∈ before, isSpace c = true) (hafter : ∀ c ∈ after, isSpace c = true)
    (hhead : ∀ c ∈ s.head?, isSpace c = false) (hlast : ∀ c ∈ s.getLast?, isSpace c = false) :
    trim (before ++ (s ++ after)) = s := by
  have hleft : (before ++ (s ++ after)).dropWhile isSpace = s ++ after :=
    (takeWhile_append_head hbefore (by rwa [List.head?_append_of_ne_nil _ hs])).2
  have hright : (after.reverse ++ s.reverse).dropWhile isSpace = s.reverse :=
    (takeWhile_append_head (by simpa using hafter) (by rwa [List.head?_reverse])).2
  rw [trim, hleft, List.reverse_append, hright, List.reverse_reverse]

namespace Number

variable (n : Number)

theorem getLast?_isDigit : ∀ c ∈ n.digits.getLast?, LowKeyWebServer.isDigit c = true :=
  fun c hc => n.isDigit c (List.mem_of_getLast? hc)

theorem leadingInt : LeadingInt n.digits (decimal n.digits) := by
  refine ⟨[], .none, n.digits, [], ?_, ?_, n.ne_nil, n.isDigit, ?_, rfl, ?_, ?_⟩
  · rw [List.append_nil]
    rfl
  · intro c hc
    cases hc
  · intro c hc
    cases hc
  · omega
  · have := n.le_max
    omega

end Number

namespace AgeName

theorem aged_append (k : AgeName) (s : Bytes) : Aged (k.text ++ s) := by
  have h : k.text <:+: k.text ++ s := (List.prefix_append _ _).isInfix
  cases k with
  | maxAge => exact Or.inl h
  | maxStale => exact Or.inr (Or.inl h)
  | minFresh => exact Or.inr (Or.inr h)

/-- The three names are lower case letters and a dash. -/
theorem mem_text {k : AgeName} {c : Byte} (hc : c ∈ k.text) :
    isSpace c = false ∧ c ≠ ',' ∧ c ≠ '=' := by
  have hall : ∀ c ∈ k.text, isSpace c = false ∧ c ≠ ',' ∧ c ≠ '=' := by
    apply forall_mem_of_all
    cases k <;> decide
  exact hall c hc

theorem find_text (k : AgeName) (digits : Bytes) :
    find (str "=") (k.text ++ str "=" ++ digits) = some k.text.length :=
  (congrArg _ (List.append_assoc _ _ _)).trans
    (find_char_append (fun h => (mem_text h).2.2 rfl) digits)

theorem given_text (k : AgeName) (digits : Bytes) :
    givenVal (k.text ++ str "=" ++ digits) = digits ∧
      givenName (k.text ++ str "=" ++ digits) = k.text := by
  obtain ⟨hval, hname⟩ := given_some (k.find_text digits)
  rw [hval, hname]
  refine ⟨?_, ?_⟩
  · rw [List.append_assoc, ← List.drop_drop, List.drop_left]
    rfl
  · rw [List.append_assoc, List.take_left]

theorem aged_text (k : AgeName) (digits : Bytes) : Aged (k.text ++ str "=" ++ digits) := by
  rw [List.append_assoc]
  exact k.aged_append _

end AgeName

namespace Directive

theorem text_ne_nil (d : Directive) : d.text ≠ [] := by
  cases d with
  | bare name => exact name.ne_nil
  | aged k n => exact List.append_ne_nil_of_right_ne_nil _ n.ne_nil

theorem head?_text (d : Directive) : ∀ c ∈ d.text.head?, isSpace c = false := by
  cases d with
  | bare name => exact name.head
  | aged k n =>
    have hne : k.text ≠ [] := by cases k <;> decide
    rw [text, List.append_assoc, List.head?_append_of_ne_nil _ hne]
    exact fun c hc => (AgeName.mem_text (List.mem_of_head? hc)).1

theorem getLast?_text (d : Directive) : ∀ c ∈ d.text.getLast?, isSpace c = false := by
  cases d with
  | bare name => exact name.last
  | aged k n =>
    intro c hc
    rw [text, List.getLast?_append_of_ne_nil _ n.ne_nil] at hc
    exact (isDigit_plain (n.getLast?_isDigit c hc)).1

theorem comma_notMem_text (d : Directive) : (',' : Byte) ∉ d.text := by
  cases d with
  | bare name => exact name.noComma
  | aged k n =>
    intro hmem
    rcases List.mem_append.mp hmem with hk | hn
    · rcases List.mem_append.mp hk with hk | heq
      · exact (AgeName.mem_text hk).2.1 rfl
      · exact absurd heq (by decide)
    · exact absurd (n.isDigit _ hn) (by decide)

/-- **One directive** is read back. -/
theorem parseDirective_text (d : Directive) : parseDirective d.text = some (d.name, d.value) := by
  cases d with
  | bare name => exact parseDirective_plain name.plain
  | aged k n =>
    have hnum : ¬ NoNumber n.digits := by
      rintro ⟨c, hc, hno⟩
      rw [n.getLast?_isDigit c hc] at hno
      cases hno
    obtain ⟨hval, hname⟩ := k.given_text n.digits
    rw [text, parseDirective_aged (k.aged_text n.digits), hval, hname, if_neg hnum,
      stoi_eq_some_iff.mpr n.leadingInt]
    rfl

end Directive

theorem Padded.trim_text (p : Padded) : trim p.text = p.directive.text :=
  trim_pad p.directive.text_ne_nil p.blankBefore p.blankAfter p.directive.head?_text
    p.directive.getLast?_text

theorem Padded.comma_notMem_text (p : Padded) : (',' : Byte) ∉ p.text := by
  have hblank : isSpace ',' = false := by decide
  intro hmem
  rcases List.mem_append.mp hmem with hb | hmem
  · exact absurd (p.blankBefore _ hb) (by rw [hblank]; decide)
  · rcases List.mem_append.mp hmem with hd | ha
    · exact p.directive.comma_notMem_text hd
    · exact absurd (p.blankAfter _ ha) (by rw [hblank]; decide)

theorem splitOn_render {ds : List Padded} (hne : ds ≠ []) :
    (render ds).splitOn (',' : Byte) = ds.map Padded.text := by
  rw [render, List.splitOn_intercalate]
  · intro l hl
    obtain ⟨p, -, rfl⟩ := List.mem_map.mp hl
    exact p.comma_notMem_text
  · simpa using hne

/-- The pieces of a rendered header are its directives. -/
theorem pieces_render {ds : List Padded} (hne : ds ≠ []) :
    pieces (render ds) = ds.map fun p => p.directive.text := by
  rw [pieces, splitOn_render hne, List.map_map]
  exact List.map_congr_left fun p _ => p.trim_text

/-- The names and values of some directives. -/
def assignments (ds : List Padded) : List (Bytes × Int) :=
  ds.map fun p => (p.directive.name, p.directive.value)

theorem mapM_parseDirective (ds : List Padded) :
    (ds.map fun p => p.directive.text).mapM parseDirective = some (assignments ds) := by
  induction ds with
  | nil => rfl
  | cons p ds ih =>
    rw [List.map_cons, List.mapM_cons, p.directive.parseDirective_text, ih]
    rfl

theorem parseCacheDirs_render {ds : List Padded} (hne : ds ≠ []) :
    parseCacheDirs (render ds) ∅ = some (setAll ∅ (assignments ds)) := by
  rw [parseCacheDirs_eq, pieces_render hne, mapM_parseDirective]
  rfl

/-! ### The map of a list of assignments -/

/-- The last assignment to a key stays. -/
theorem getElem?_setAll (vals : List (Bytes × Int)) (key : Bytes) :
    (setAll ∅ vals)[key]? = (vals.reverse.find? fun p => p.1 == key).map Prod.snd := by
  induction vals using List.reverseRecOn with
  | nil => exact TreeMap.getElem?_emptyc
  | append_singleton vals p ih =>
    rw [setAll, List.foldl_append, List.reverse_append]
    simp only [List.foldl_cons, List.foldl_nil, List.reverse_singleton, List.singleton_append,
      List.find?_cons, TreeMap.getElem?_insert, LawfulEqCmp.compare_eq_iff_eq]
    by_cases hkey : p.1 = key
    · simp [hkey]
    · rw [if_neg hkey, beq_false_of_ne hkey]
      exact ih

/-- With one assignment for each key, their order does not matter. -/
theorem getElem?_setAll_eq_some {vals : List (Bytes × Int)} (hnodup : (vals.map Prod.fst).Nodup)
    {key : Bytes} {val : Int} : (setAll ∅ vals)[key]? = some val ↔ (key, val) ∈ vals := by
  rw [getElem?_setAll, Option.map_eq_some_iff]
  constructor
  · rintro ⟨p, hp, rfl⟩
    have hkey := List.find?_some hp
    rw [beq_iff_eq] at hkey
    subst hkey
    exact List.mem_reverse.mp (List.mem_of_find?_eq_some hp)
  · intro hmem
    have hsome : (vals.reverse.find? fun p => p.1 == key).isSome = true := by
      rw [List.find?_isSome]
      exact ⟨(key, val), List.mem_reverse.mpr hmem, beq_self_eq_true key⟩
    obtain ⟨p, hp⟩ := Option.isSome_iff_exists.mp hsome
    have hkey := List.find?_some hp
    rw [beq_iff_eq] at hkey
    have hmem' := List.mem_reverse.mp (List.mem_of_find?_eq_some hp)
    have heq : p = (key, val) := List.inj_on_of_nodup_map hnodup hmem' hmem hkey
    exact ⟨p, hp, by rw [heq]⟩

/-- The value of the last directive of a name. -/
def lastValue (ds : List Padded) (name : Bytes) : Option Int :=
  (ds.reverse.find? fun p => p.directive.name == name).map fun p => p.directive.value

theorem getElem?_assignments (ds : List Padded) (name : Bytes) :
    (setAll ∅ (assignments ds))[name]? = lastValue ds name := by
  rw [getElem?_setAll, assignments, lastValue, ← List.map_reverse, List.find?_map, Option.map_map]
  rfl

/-! ### The whole header -/

namespace Directive

/-- The digits of the value, if there is one. -/
def digits : Directive → Bytes
  | bare _ => []
  | aged _ n => n.digits

theorem shortValue_iff (d : Directive) : ShortValue d.text ↔ d.digits.length < 2 ^ 31 := by
  cases d with
  | bare name => exact iff_of_true (fun haged => absurd haged name.plain) (Nat.two_pow_pos 31)
  | aged k n =>
    have hval := (k.given_text n.digits).1
    refine ⟨fun h => ?_, fun hlen => fun _ => ⟨fun i hi => ?_, ?_⟩⟩
    · have hlen := (h (k.aged_text n.digits)).2
      rwa [text, hval] at hlen
    · have hsmall : k.text.length < 10 := by cases k <;> decide
      obtain rfl := Option.some.inj ((k.find_text n.digits).symm.trans hi)
      omega
    · rw [text, hval]
      exact hlen

theorem name_ne_nil (d : Directive) : d.name ≠ [] := by
  cases d with
  | bare name => exact name.ne_nil
  | aged k n =>
    have hne : k.text ≠ [] := by cases k <;> decide
    exact hne

end Directive

/-- The commas, and the numbers, are in the range of `int`. -/
structure ShortList (ds : List Padded) : Prop where
  commas : ∀ p ∈ ds.dropLast, p.text.length < 2 ^ 31
  numbers : ∀ p ∈ ds, p.directive.digits.length < 2 ^ 31

theorem inRange_render {ds : List Padded} (hne : ds ≠ []) : InRange (render ds) ↔ ShortList ds := by
  have hcommas : ((render ds).splitOn (',' : Byte)).dropLast = ds.dropLast.map Padded.text := by
    rw [splitOn_render hne, List.map_dropLast]
  have hvalues : (∀ token ∈ pieces (render ds), ShortValue token) ↔
      ∀ p ∈ ds, p.directive.digits.length < 2 ^ 31 := by
    rw [pieces_render hne, List.forall_mem_map]
    exact forall₂_congr fun p _ => p.directive.shortValue_iff
  refine ⟨fun ⟨h, h'⟩ => ⟨?_, hvalues.mp h'⟩, fun ⟨h, h'⟩ => ⟨?_, hvalues.mpr h'⟩⟩
  · rwa [hcommas, List.forall_mem_map] at h
  · rwa [hcommas, List.forall_mem_map]

/-- The code reads the last value of each name. -/
def ReadsBack (headers : StringMap Bytes) (ds : List Padded) : Prop :=
  ∃ hdrs : StringMap Int,
    runParseCacheHdrs (headers.insert (str "Cache-Control") (render ds)) = some hdrs ∧
    ∀ name : Bytes, hdrs[name]? = lastValue ds name

variable {headers : StringMap Bytes} {ds ds' : List Padded}

theorem readsBack_of_short (hne : ds ≠ []) (h : ShortList ds) : ReadsBack headers ds := by
  refine ⟨_, ?_, getElem?_assignments ds⟩
  have hrange : InRange (render ds) := (inRange_render hne).mpr h
  rw [runParseCacheHdrs, TreeMap.getD_insert_self, runParseCacheDirs_of_inRange hrange]
  exact parseCacheDirs_render hne

/-- Below 4 GiB a list out of range leaves a name that no directive has, or throws. -/
theorem not_readsBack_of_long (hne : ds ≠ []) (hlen : (render ds).length < 2 ^ 32)
    (h : ¬ ShortList ds) : ¬ ReadsBack headers ds := by
  rintro ⟨hdrs, hrun, hread⟩
  rw [runParseCacheHdrs, TreeMap.getD_insert_self] at hrun
  have hempty := getElem?_of_not_inRange hlen ((inRange_render hne).not.mpr h) hrun
  rw [hread, lastValue, Option.map_eq_some_iff] at hempty
  obtain ⟨p, hp, -⟩ := hempty
  have hname := List.find?_some hp
  rw [beq_iff_eq] at hname
  exact p.directive.name_ne_nil hname

/-- The order of directives with distinct names does not matter to their values. -/
theorem lastValue_perm (hnodup : (ds.map fun p => p.directive.name).Nodup)
    (hperm : (ds'.map Padded.directive).Perm (ds.map Padded.directive)) (name : Bytes) :
    lastValue ds' name = lastValue ds name := by
  have hassign : (assignments ds').Perm (assignments ds) := by
    have := hperm.map fun d => (d.name, d.value)
    rwa [List.map_map, List.map_map] at this
  have hnodup' : ((assignments ds).map Prod.fst).Nodup := by
    rwa [assignments, List.map_map]
  rw [← getElem?_assignments, ← getElem?_assignments]
  ext val
  rw [getElem?_setAll_eq_some hnodup', getElem?_setAll_eq_some
    ((hassign.map Prod.fst).nodup_iff.mpr hnodup'), hassign.mem_iff]

/-- **Reading inverts rendering**: the last value of each name is read back, in any header map, from a
list in the range of `int`, and below 4 GiB from no other. Between lists that are read back, the order
does not matter when the names are distinct. -/
theorem readsBack_iff (headers : StringMap Bytes) (p : Padded) (ps : List Padded) :
    (ShortList (p :: ps) → ReadsBack headers (p :: ps)) ∧
    ((render (p :: ps)).length < 2 ^ 32 →
      (ReadsBack headers (p :: ps) ↔ ShortList (p :: ps))) ∧
    (((p :: ps).map fun p => p.directive.name).Nodup → ∀ ds : List Padded,
      (ds.map Padded.directive).Perm ((p :: ps).map Padded.directive) →
      ShortList (p :: ps) → ShortList ds →
      ∃ hdrs hdrs' : StringMap Int,
        runParseCacheHdrs (headers.insert (str "Cache-Control") (render (p :: ps))) = some hdrs ∧
        runParseCacheHdrs (headers.insert (str "Cache-Control") (render ds)) = some hdrs' ∧
        ∀ name : Bytes, hdrs'[name]? = hdrs[name]?) := by
  have hne : p :: ps ≠ [] := List.cons_ne_nil p ps
  refine ⟨readsBack_of_short hne, fun hlen => ⟨fun h => ?_, readsBack_of_short hne⟩,
    fun hnodup ds hperm hshort hshort' => ?_⟩
  · by_contra hlong
    exact not_readsBack_of_long hne hlen hlong h
  · have hne' : ds ≠ [] := by
      rintro rfl
      exact absurd hperm.symm.eq_nil (List.cons_ne_nil _ _)
    obtain ⟨hdrs, hrun, hread⟩ : ReadsBack headers (p :: ps) := readsBack_of_short hne hshort
    obtain ⟨hdrs', hrun', hread'⟩ : ReadsBack headers ds := readsBack_of_short hne' hshort'
    refine ⟨hdrs, hdrs', hrun, hrun', fun name => ?_⟩
    rw [hread, hread', lastValue_perm hnodup hperm]

/-- `a` and `b`, with 2 GiB of blanks behind the first. -/
theorem not_readsBack_long :
    ¬ ∀ (headers : StringMap Bytes) (p : Padded) (ps : List Padded), ReadsBack headers (p :: ps) := by
  intro hall
  obtain ⟨n, hn⟩ : ∃ n : Nat, n = 2 ^ 31 := ⟨_, rfl⟩
  have hname : ∀ c ∈ str "ab", ∃ name : BareName, name.name = [c] := by
    intro c hc
    have hbare : c ≠ ',' ∧ isSpace c = false ∧ ¬ Aged [c] := by
      revert c
      decide
    exact ⟨⟨[c], by simp, by simpa using hbare.1.symm, by simpa using hbare.2.1,
      by simpa using hbare.2.1, hbare.2.2⟩, rfl⟩
  obtain ⟨a, ha⟩ := hname 'a' (by decide)
  obtain ⟨b, hb⟩ := hname 'b' (by decide)
  have hblank : ∀ c ∈ List.replicate n (' ' : Byte), isSpace c = true := fun c hc =>
    List.eq_of_mem_replicate hc ▸ rfl
  have hnil : ∀ c ∈ ([] : Bytes), isSpace c = true := fun c hc => absurd hc List.not_mem_nil
  let p : Padded := ⟨[], .bare a, List.replicate n (' ' : Byte), hnil, hblank⟩
  let q : Padded := ⟨[], .bare b, [], hnil, hnil⟩
  have hp : p.text = ('a' : Byte) :: List.replicate n (' ' : Byte) := by
    simp only [p, Padded.text, Directive.text, ha, List.nil_append, List.singleton_append]
  have hq : q.text = str "b" := by
    simp only [q, Padded.text, Directive.text, hb, List.nil_append, List.append_nil]
    rfl
  have hlen : (render [p, q]).length = n + 3 := by
    rw [render, List.map_cons, List.map_singleton, hp, hq]
    simp [List.intercalate, str]
  refine not_readsBack_of_long (List.cons_ne_nil p [q]) (by omega) (fun hshort => ?_) (hall ∅ p [q])
  have hcomma := hshort.commas p List.mem_cons_self
  rw [hp, List.length_cons, List.length_replicate] at hcomma
  omega

end LowKeyWebServer
