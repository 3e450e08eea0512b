import Mathlib.Data.List.TakeWhile
import LowKeyWebServer.CacheDirectives
import LowKeyWebServer.ParserAgreement

/-!
# Which strings are complete heads

`check_request` as it is written, with its positions in an `int`: what `find` returns is truncated
(`findInt`), and a position that is given back to `substr` is unsigned again (`unsignedSize`). While no
line that it gets to ends out of the range of `int`, it accepts exactly the complete heads
(`checksHead_of_short`); behind one it can also throw, or read the same line again and again.
-/

namespace LowKeyWebServer

namespace Utils

/-! ## The code -/

/-- The loop over the header lines, with fuel; the inner `none` is what `substr` throws. -/
def headersLoop : Nat → Bytes → Option (Option Bool)
  | 0, _ => none
  | fuel + 1, request =>
    let line := findInt crlf request
    if line = -1 then some (some false)
    else
      let header := request.take (unsignedSize line)
      if !checkHeader header && header != [] then some (some false)
      else if header = [] then some (some true)
      else
        match substr request (unsignedSize (line + 2)) with
        | none => some none
        | some request => headersLoop fuel request

/-- `Utils::check_request`, with fuel for its loop. -/
def runCheckRequest (fuel : Nat) (request : Bytes) : Option (Option Bool) :=
  let line := findInt crlf request
  let requestLine := request.take (unsignedSize line) ++ crlf
  if !checkRequestLine requestLine then some (some false)
  else
    match substr request (unsignedSize (line + 2)) with
    | none => some none
    | some request =>
      let pos := findInt (str " ") requestLine
      if (checkMethod (requestLine.take (unsignedSize pos))).isNone then some (some false)
      else headersLoop fuel request

/-! ## Complete heads -/

/-- Lines, each with its end. -/
def render (lines : List Bytes) : Bytes := lines.flatMap fun l => l ++ crlf

/-- A line of a head. -/
structure HeadLine (l : Bytes) : Prop where
  ne_nil : l ≠ []
  whole : ¬ crlf <:+: l
  checked : checkHeader l = true

/-- A request line, header lines and an empty line, and whatever follows. -/
structure CompleteHead (s : Bytes) (first : Bytes) (lines : List Bytes) (rest : Bytes) : Prop where
  text : s = first ++ crlf ++ (render lines ++ (crlf ++ rest))
  whole : ¬ crlf <:+: first
  checked : checkRequestLine (first ++ crlf) = true
  known : checkMethod (methodName first) ≠ none
  lines : ∀ l ∈ lines, HeadLine l

/-- `check_request` returns, and it accepts the string exactly if it is a complete head. -/
def ChecksHead (s : Bytes) : Prop :=
  ∃ fuel accepted, runCheckRequest fuel s = some (some accepted) ∧
    (accepted = true ↔ ∃ first lines rest, CompleteHead s first lines rest)

/-! ### Line by line -/

/-- A line end is found where a line without one ends. -/
theorem find_crlf_line {l : Bytes} (hl : ¬ crlf <:+: l) (t : Bytes) :
    find crlf (l ++ (crlf ++ t)) = some l.length := by
  induction l with
  | nil => exact find_front crlf t
  | cons c l ih =>
    rw [List.infix_cons_iff, not_or] at hl
    have hpre : ¬ crlf.isPrefixOf (c :: (l ++ (crlf ++ t))) = true := by
      rw [List.isPrefixOf_iff_prefix]
      intro hpre
      obtain ⟨rfl, hnext⟩ := List.cons_prefix_cons.mp hpre
      rcases l with - | ⟨d, l⟩
      · exact absurd (List.cons_prefix_cons.mp hnext).1 (by decide)
      · obtain ⟨rfl, -⟩ := List.cons_prefix_cons.mp hnext
        exact hl.1 ⟨l, rfl⟩
    rw [List.cons_append, find, if_neg hpre, ih hl.2]
    rfl

/-- There is none before the one that is found. -/
theorem not_infix_take {s : Bytes} {i : Nat} (h : find crlf s = some i) : ¬ crlf <:+: s.take i := by
  have hnil : ¬ crlf <:+: [] := fun h => absurd (List.infix_nil.mp h) (List.cons_ne_nil _ _)
  induction s generalizing i with
  | nil => rwa [List.take_nil]
  | cons c s ih =>
    rw [find] at h
    split at h
    · obtain rfl := Option.some.inj h
      exact hnil
    · next hpre =>
      obtain ⟨j, hj, rfl⟩ := Option.map_eq_some_iff.mp h
      rw [List.take_succ_cons, List.infix_cons_iff, not_or]
      refine ⟨fun hprefix => hpre (List.isPrefixOf_iff_prefix.mpr ?_), ih hj⟩
      exact hprefix.trans (List.prefix_cons_inj c |>.mpr (List.take_prefix j s))

/-- The line, its end, and the rest. -/
theorem split_line {s : Bytes} {i : Nat} (h : find crlf s = some i) :
    s = s.take i ++ (crlf ++ s.drop (i + 2)) := by
  obtain ⟨t, ht, hi⟩ := find_eq_some h
  have hdrop : s.drop i = crlf ++ t := by
    have hlen : (s.take i).length = i := List.length_take_of_le hi
    have hsplit := congrArg (List.drop i) ht
    rwa [List.append_assoc, List.drop_left' hlen] at hsplit
  have hrest : s.drop (i + 2) = t := by
    rw [← List.drop_drop, hdrop]
    rfl
  rw [hrest, ← hdrop, List.take_append_drop]

/-- **The header lines**, up to the empty one. -/
theorem checkHeaders_iff (s : Bytes) : checkHeaders s = true ↔
    ∃ lines rest, s = render lines ++ (crlf ++ rest) ∧ ∀ l ∈ lines, HeadLine l := by
  refine ⟨fun h => ?_, ?_⟩
  · fun_induction checkHeaders s with
    | case1 s hs => cases h
    | case2 s i hs header hbad => cases h
    | case3 s i hs header hgood hempty =>
      refine ⟨[], s.drop (i + 2), ?_, fun l hl => absurd hl List.not_mem_nil⟩
      have hsplit := split_line hs
      rwa [show s.take i = [] from hempty, List.nil_append] at hsplit
    | case4 s i hs header hgood hne ih =>
      obtain ⟨lines, rest, hrest, hlines⟩ := ih h
      refine ⟨s.take i :: lines, rest, ?_, List.forall_mem_cons.mpr ⟨⟨hne, not_infix_take hs, ?_⟩, hlines⟩⟩
      · have hsplit := split_line hs
        rw [hrest] at hsplit
        simpa [render] using hsplit
      · simpa [hne] using hgood
  · rintro ⟨lines, rest, rfl, hlines⟩
    induction lines with
    | nil =>
      rw [render, List.flatMap_nil, List.nil_append, checkHeaders_some (find_front crlf rest)]
      exact Or.inl rfl
    | cons l lines ih =>
      rw [List.forall_mem_cons] at hlines
      obtain ⟨hl, hlines⟩ := hlines
      have htext : render (l :: lines) ++ (crlf ++ rest) = l ++ (crlf ++ (render lines ++ (crlf ++ rest))) := by
        simp [render]
      rw [htext, checkHeaders_some (find_crlf_line hl.whole _), List.take_left]
      refine Or.inr ⟨hl.checked, ?_⟩
      rw [← List.drop_drop, List.drop_left]
      exact ih hlines

/-! ### Header names -/

/-- What stands before the colon of a header line. -/
def headerName : Regex Byte :=
  .cat (.plus letter) (.star (.cat (.word (str "-")) (.plus (range 'A' 'z'))))

theorem checkHeader_iff {l : Bytes} : checkHeader l = true ↔
    ∃ name value, l = name ++ (str ":" ++ value) ∧ name ∈ headerName.language := by
  rw [checkHeader, Regex.isMatch_iff]
  refine ⟨fun h => ?_, ?_⟩
  · obtain ⟨name, _, rfl, hname, h⟩ := Regex.mem_seq_cons.mp h
    obtain ⟨more, _, rfl, hmore, h⟩ := Regex.mem_seq_cons.mp h
    obtain ⟨colon, value, rfl, hcolon, -⟩ := Regex.mem_seq_cons.mp h
    obtain rfl := Regex.mem_word.mp hcolon
    exact ⟨name ++ more, value, (List.append_assoc ..).symm, Regex.mem_cat.mpr ⟨name, more, rfl, hname, hmore⟩⟩
  · rintro ⟨_, value, rfl, hname⟩
    obtain ⟨name, more, rfl, hname, hmore⟩ := Regex.mem_cat.mp hname
    rw [List.append_assoc]
    refine Regex.mem_seq_cons.mpr ⟨name, _, rfl, hname, ?_⟩
    refine Regex.mem_seq_cons.mpr ⟨more, _, rfl, hmore, ?_⟩
    refine Regex.mem_seq_cons.mpr ⟨_, value, rfl, Regex.mem_word.mpr rfl, ?_⟩
    refine Regex.mem_seq_cons.mpr ⟨[], value, rfl, Regex.nil_mem_star _, ?_⟩
    exact Regex.mem_seq_cons.mpr ⟨value, [], (List.append_nil value).symm, Regex.mem_star_any value, rfl⟩

/-- A name has no line end. -/
theorem no_cr_headerName {name : Bytes} (h : name ∈ headerName.language) : ('\r' : Byte) ∉ name := by
  have hletters {p : Byte → Bool} {w : Bytes} (hp : p '\r' = false)
      (hw : w ∈ (Regex.plus (.cls p)).language) : ('\r' : Byte) ∉ w := fun hmem =>
    Bool.false_ne_true (hp.symm.trans ((Regex.mem_plus_cls.mp hw).2 _ hmem))
  obtain ⟨name, more, rfl, hname, hmore⟩ := Regex.mem_cat.mp h
  obtain ⟨parts, rfl, hparts⟩ := Language.mem_kstar.mp hmore
  rw [List.mem_append, not_or]
  refine ⟨hletters (by decide) hname, fun hmem => ?_⟩
  obtain ⟨part, hpart, hmem⟩ := List.mem_flatten.mp hmem
  obtain ⟨dash, word, rfl, hdash, hword⟩ := Regex.mem_cat.mp (hparts part hpart)
  obtain rfl := Regex.mem_word.mp hdash
  rcases List.mem_append.mp hmem with hmem | hmem
  · exact absurd hmem (by decide)
  · exact hletters (by decide) hword hmem

/-- What follows the line does not matter to its check. -/
theorem checkHeader_append (l t : Bytes) : checkHeader (l ++ (crlf ++ t)) = true ↔ checkHeader l = true := by
  rw [checkHeader_iff, checkHeader_iff]
  refine ⟨?_, ?_⟩
  · rintro ⟨name, value, htext, hname⟩
    rw [← List.append_assoc name] at htext
    have hcr : ('\r' : Byte) ∉ name ++ str ":" := by
      rw [List.mem_append, not_or]
      exact ⟨no_cr_headerName hname, by decide⟩
    rcases List.append_eq_append_iff.mp htext with ⟨extra, hextra, hrest⟩ | ⟨value, rfl, -⟩
    · rcases extra with - | ⟨c, extra⟩
      · rw [List.append_nil] at hextra
        exact ⟨name, [], by rw [← hextra, List.append_nil], hname⟩
      · obtain rfl : '\r' = c := (List.cons.inj hrest).1
        exact absurd (hextra ▸ List.mem_append_right l List.mem_cons_self) hcr
    · exact ⟨name, value, List.append_assoc .., hname⟩
  · rintro ⟨name, value, rfl, hname⟩
    exact ⟨name, value ++ (crlf ++ t), by simp only [List.append_assoc], hname⟩

/-! ### Positions in an `int` -/

/-- A header line that the loop gets to ends at a position that is no `int`. Below 4 GiB a malformed
one does no harm. -/
inductive LongHeaders : Bytes → Prop
  | here {s : Bytes} {i : Nat} : find crlf s = some i → 2 ^ 31 ≤ i →
      (s.length < 2 ^ 32 → checkHeader (s.take i) = true) → LongHeaders s
  | later {s : Bytes} {i : Nat} : find crlf s = some i → s.take i ≠ [] →
      checkHeader (s.take i) = true → LongHeaders (s.drop (i + 2)) → LongHeaders s

/-- A first line ends at a position that is no `int`. Below 4 GiB the code then checks the whole
string as a request line. -/
def LongFirst (s : Bytes) (i : Nat) : Prop :=
  2 ^ 31 ≤ i ∧ (s.length < 2 ^ 32 →
    checkRequestLine (s ++ crlf) = true ∨ ∃ first lines rest, CompleteHead s first lines rest)

/-- A line that the check gets to ends at a position that is no `int`. -/
def LongHead (s : Bytes) : Prop :=
  ∃ i, find crlf s = some i ∧ (LongFirst s i ∨ checkRequestLine (s.take i ++ crlf) = true ∧
    checkMethod (methodName (s.take i)) ≠ none ∧ LongHeaders (s.drop (i + 2)))

theorem length_of_longHeaders {s : Bytes} (h : LongHeaders s) : 2 ^ 31 ≤ s.length := by
  induction h with
  | here hs hi _ =>
    have hle := length_of_find_crlf hs
    omega
  | later _ _ _ _ ih =>
    rw [List.length_drop] at ih
    omega

/-- There is none in what is shorter than 2 GiB. -/
theorem not_longHead {s : Bytes} (h : s.length < 2 ^ 31) : ¬ LongHead s := by
  rintro ⟨i, hs, hi | ⟨-, -, hlong⟩⟩
  · have hle := length_of_find_crlf hs
    have hlong := hi.1
    omega
  · have hle := length_of_longHeaders hlong
    rw [List.length_drop] at hle
    omega

theorem substr_line {s : Bytes} {i : Nat} (h : find crlf s = some i) (hi : i < 2 ^ 31) :
    substr s (unsignedSize (i + 2)) = some (s.drop (i + 2)) := by
  have hsize : unsignedSize (i + 2) = i + 2 := unsignedSize_nat (n := i + 2) (by omega)
  rw [hsize, substr, if_pos (length_of_find_crlf h)]

/-- A line end out of range, in a string below 4 GiB: the position is negative, so the line is
the whole string, and there is nothing behind it. -/
structure Wraps (s : Bytes) : Prop where
  found : findInt crlf s ≠ -1
  line : s.take (unsignedSize (findInt crlf s)) = s
  next : substr s (unsignedSize (findInt crlf s + 2)) = none

theorem wraps_of_long {s : Bytes} {i : Nat} (h : find crlf s = some i) (hi : 2 ^ 31 ≤ i)
    (hs : s.length < 2 ^ 32) : Wraps s := by
  have hle := length_of_find_crlf h
  have hpos : findInt crlf s = i - 2 ^ 32 := findInt_wrap h hi (by omega)
  refine ⟨by omega, List.take_of_length_le ?_, if_neg ?_⟩
  · rw [hpos, unsignedSize]
    omega
  · rw [hpos, unsignedSize]
    omega

/-- **The loop** at a line that wraps: it is rejected, or `substr` throws. -/
theorem headersLoop_wraps {s : Bytes} {i : Nat} (h : find crlf s = some i) (hw : Wraps s) (fuel : Nat) :
    headersLoop (fuel + 1) s = if checkHeader (s.take i) then some none else some (some false) := by
  have hne : s ≠ [] := by
    have hle := length_of_find_crlf h
    rintro rfl
    cases hle
  have hcheck : checkHeader s = checkHeader (s.take i) := by
    rw [Bool.eq_iff_iff]
    exact Iff.trans (by rw [← split_line h]) (checkHeader_append (s.take i) (s.drop (i + 2)))
  rw [headersLoop, if_neg hw.found, hw.line, hw.next]
  rcases hgood : checkHeader (s.take i) with - | -
  · simp [hne, hcheck, hgood]
  · simp [hne, hcheck, hgood]

/-- **The loop** where no line end out of range matters. -/
theorem headersLoop_of_short {s : Bytes} (h : ¬ LongHeaders s) :
    ∃ fuel, headersLoop fuel s = some (some (checkHeaders s)) := by
  fun_induction checkHeaders s with
  | case1 s hs =>
    refine ⟨1, ?_⟩
    rw [headersLoop, findInt_none hs]
    rfl
  | case2 s i hs header hbad =>
    refine ⟨1, ?_⟩
    rcases Nat.lt_or_ge i (2 ^ 31) with hi | hi
    · rw [headersLoop, findInt_some hs hi, unsignedSize_nat (by omega), if_neg (by omega), if_pos hbad]
    · have hbad : checkHeader (s.take i) = false := by simpa [header] using (Bool.and_eq_true_iff.mp hbad).1
      have hlen : s.length < 2 ^ 32 := by
        by_contra hlen
        exact h (.here hs hi fun hlt => absurd hlt hlen)
      rw [headersLoop_wraps hs (wraps_of_long hs hi hlen), hbad]
      rfl
  | case3 s i hs header hgood hempty =>
    have hle := length_of_find_crlf hs
    have hi : i = 0 := by
      have hzero := congrArg List.length hempty
      rw [List.length_take, List.length_nil] at hzero
      omega
    refine ⟨1, ?_⟩
    rw [headersLoop, findInt_some hs (by omega), unsignedSize_nat (by omega), if_neg (by omega),
      if_neg hgood, if_pos hempty]
  | case4 s i hs header hgood hne ih =>
    have hcheck : checkHeader (s.take i) = true := by simpa [header, hne] using hgood
    have hi : i < 2 ^ 31 := Nat.lt_of_not_le fun hi => h (.here hs hi fun _ => hcheck)
    obtain ⟨fuel, hfuel⟩ := ih fun hlong => h (.later hs hne hcheck hlong)
    refine ⟨fuel + 1, ?_⟩
    rw [headersLoop, findInt_some hs hi, unsignedSize_nat (by omega), if_neg (by omega), if_neg hgood,
      if_neg hne, substr_line hs hi]
    exact hfuel

/-- **The loop** where one does: below 4 GiB it throws. -/
theorem headersLoop_of_long {s : Bytes} (h : LongHeaders s) (hlen : s.length < 2 ^ 32) (fuel : Nat)
    (accepted : Bool) : headersLoop fuel s ≠ some (some accepted) := by
  induction h generalizing fuel with
  | here hs hi hcheck =>
    rcases fuel with - | fuel
    · exact Option.some_ne_none _ ∘ Eq.symm
    · rw [headersLoop_wraps hs (wraps_of_long hs hi hlen), if_pos (hcheck hlen)]
      exact Option.some_ne_none _ ∘ Eq.symm ∘ Option.some.inj
  | @later s i hs hne hcheck hlong ih =>
    have hlong := length_of_longHeaders hlong
    rw [List.length_drop] at hlong ih
    have hi : i < 2 ^ 31 := by omega
    rcases fuel with - | fuel
    · exact Option.some_ne_none _ ∘ Eq.symm
    · rw [headersLoop, findInt_some hs hi, unsignedSize_nat (by omega), if_neg (by omega),
        if_neg (by simp [hcheck]), if_neg hne, substr_line hs hi]
      exact ih (by omega) fuel

/-! ### The method -/

theorem no_blank_crlf {l : Bytes} (h : (' ' : Byte) ∉ l) : (' ' : Byte) ∉ l ++ crlf := by
  rw [List.mem_append, not_or]
  exact ⟨h, by decide⟩

theorem methodName_blank {u : Bytes} (hu : (' ' : Byte) ∉ u) (t : Bytes) :
    methodName (u ++ (' ' : Byte) :: t) = u := by
  have hne : ∀ c ∈ u, (c != ' ') = true := fun c hc => bne_iff_ne.mpr fun h => hu (h ▸ hc)
  rw [methodName, List.takeWhile_append_of_pos hne, List.takeWhile_cons_of_neg (by simp),
    List.append_nil]

theorem methodName_whole {s : Bytes} (hs : (' ' : Byte) ∉ s) : methodName s = s :=
  List.takeWhile_eq_self_iff.mpr fun _ hc => bne_iff_ne.mpr fun h => hs (h ▸ hc)

theorem no_slash_of_method {m : Bytes} (h : checkMethod m ≠ none) : ('/' : Byte) ∉ m := by
  by_contra hm
  refine h ?_
  unfold checkMethod
  repeat rw [if_neg (by rintro rfl; exact absurd hm (by decide))]

theorem slash_mem_of_check {l : Bytes} (h : checkRequestLine (l ++ crlf) = true) : ('/' : Byte) ∈ l := by
  obtain ⟨method, sp, target, ws, d, e, rfl, -⟩ := lineShape_of_check h
  simp [str]

/-- Behind the first blank the line's end does not matter, and without a blank there is no method
that is known. -/
theorem method_known_iff {l : Bytes} (h : checkRequestLine (l ++ crlf) = true) :
    checkMethod (methodName (l ++ crlf)) ≠ none ↔ checkMethod (methodName l) ≠ none := by
  by_cases hblank : (' ' : Byte) ∈ l
  · obtain ⟨u, t, rfl, hu⟩ := List.eq_append_cons_of_mem hblank
    rw [List.append_assoc, List.cons_append, methodName_blank hu, methodName_blank hu]
  · have hslash := slash_mem_of_check h
    rw [methodName_whole (no_blank_crlf hblank), methodName_whole hblank]
    refine ⟨fun hknown => ?_, fun hknown => ?_⟩
    · exact absurd (List.mem_append_left crlf hslash) (no_slash_of_method hknown)
    · exact absurd hslash (no_slash_of_method hknown)

/-- What the code takes for the method. -/
theorem take_method {l : Bytes} (h : l.length < 2 ^ 31) :
    (l ++ crlf).take (unsignedSize (findInt (str " ") (l ++ crlf))) = methodName (l ++ crlf) := by
  by_cases hblank : (' ' : Byte) ∈ l
  · obtain ⟨u, t, rfl, hu⟩ := List.eq_append_cons_of_mem hblank
    rw [List.append_assoc, List.cons_append, methodName_blank hu]
    rw [List.length_append] at h
    have hpos : findInt (str " ") (u ++ (' ' : Byte) :: (t ++ crlf)) = u.length :=
      findInt_some (find_char_append hu (t ++ crlf)) (by omega)
    rw [hpos, unsignedSize_nat (by omega), List.take_left]
  · have hnone : findInt (str " ") (l ++ crlf) = -1 :=
      findInt_none (find_char_eq_none.mpr (no_blank_crlf hblank))
    rw [methodName_whole (no_blank_crlf hblank), hnone, unsignedSize_npos]
    refine List.take_of_length_le ?_
    rw [List.length_append, crlf, List.length_cons, List.length_singleton]
    omega

/-! ### The check -/

/-- Without a line end nothing is accepted, and nothing is out of range. -/
theorem runCheckRequest_none {s : Bytes} (h : find crlf s = none) :
    runCheckRequest 1 s = some (some false) := by
  rw [runCheckRequest, findInt_none h]
  rcases s with - | ⟨c, s⟩
  · rw [List.take_nil, List.nil_append, if_pos (by decide)]
  · have hdrop : find crlf s = none := by
      rw [find] at h
      split at h
      · cases h
      · exact Option.map_eq_none_iff.mp h
    have hsubstr : substr (c :: s) (unsignedSize (-1 + 2)) = some s :=
      if_pos (Nat.le_add_left 1 s.length)
    have hloop : headersLoop 1 s = some (some false) := by
      rw [headersLoop, findInt_none hdrop]
      rfl
    simp only [hsubstr, hloop]
    split
    · rfl
    · split <;> rfl

/-- **The check** behind a first line whose end is in range. -/
theorem runCheckRequest_some {s : Bytes} {i : Nat} (hs : find crlf s = some i) (hi : i < 2 ^ 31)
    (fuel : Nat) : runCheckRequest fuel s =
      if !checkRequestLine (s.take i ++ crlf) then some (some false)
      else if (checkMethod (methodName (s.take i ++ crlf))).isNone then some (some false)
      else headersLoop fuel (s.drop (i + 2)) := by
  have hlen : (s.take i).length < 2 ^ 31 := by
    rw [List.length_take]
    omega
  rw [runCheckRequest, findInt_some hs hi, unsignedSize_nat (by omega), substr_line hs hi]
  simp only [take_method hlen]

/-- At a first line that wraps: the string is rejected, or `substr` throws. -/
theorem runCheckRequest_wraps {s : Bytes} (hw : Wraps s) (fuel : Nat) :
    runCheckRequest fuel s = if checkRequestLine (s ++ crlf) then some none else some (some false) := by
  rw [runCheckRequest, hw.line, hw.next]
  cases checkRequestLine (s ++ crlf) <;> rfl

/-- **The check** where no line end out of range matters, behind a first line whose end is in range. -/
theorem runCheckRequest_of_short {s : Bytes} {i : Nat} (hs : find crlf s = some i) (hi : i < 2 ^ 31)
    (h : ¬ LongHead s) : ∃ fuel, runCheckRequest fuel s = some (some (checkRequest s)) := by
  have hrun := runCheckRequest_some hs hi
  rcases hline : checkRequestLine (s.take i ++ crlf) with - | -
  · exact ⟨0, by simp [hrun, checkRequest, hs, hline]⟩
  · rcases hmethod : checkMethod (methodName (s.take i ++ crlf)) with - | m
    · exact ⟨0, by simp [hrun, checkRequest, hs, hline, hmethod]⟩
    · have hknown : checkMethod (methodName (s.take i)) ≠ none :=
        (method_known_iff hline).mp (by simp [hmethod])
      obtain ⟨fuel, hfuel⟩ := headersLoop_of_short fun hlong => h ⟨i, hs, Or.inr ⟨hline, hknown, hlong⟩⟩
      exact ⟨fuel, by simp [hrun, checkRequest, hs, hline, hmethod, hfuel]⟩

/-- A complete head is one that is accepted line by line. -/
theorem checkRequest_iff {s : Bytes} {i : Nat} (hs : find crlf s = some i) :
    checkRequest s = true ↔ ∃ first lines rest, CompleteHead s first lines rest := by
  rw [checkRequest_some hs]
  refine ⟨fun ⟨hline, hknown, hheaders⟩ => ?_, ?_⟩
  · obtain ⟨lines, rest, hrest, hlines⟩ := (checkHeaders_iff _).mp hheaders
    have htext := split_line hs
    rw [hrest, ← List.append_assoc] at htext
    exact ⟨s.take i, lines, rest, htext, not_infix_take hs, hline, (method_known_iff hline).mp hknown, hlines⟩
  · rintro ⟨first, lines, rest, htext, hwhole, hline, hknown, hlines⟩
    rw [List.append_assoc] at htext
    obtain rfl : first.length = i := Option.some.inj ((find_crlf_line hwhole _).symm.trans (htext ▸ hs))
    have htake : s.take first.length = first := by rw [htext, List.take_left]
    have hdrop : s.drop (first.length + 2) = render lines ++ (crlf ++ rest) := by
      rw [htext, ← List.drop_drop, List.drop_left]
      rfl
    rw [htake, hdrop]
    exact ⟨hline, (method_known_iff hline).mpr hknown, (checkHeaders_iff _).mpr ⟨lines, rest, rfl, hlines⟩⟩

/-- It returns the right answer where no line end out of range matters. -/
theorem checksHead_of_short {s : Bytes} (h : ¬ LongHead s) : ChecksHead s := by
  rcases hs : find crlf s with - | i
  · refine ⟨1, false, runCheckRequest_none hs, fun h => (Bool.false_ne_true h).elim, ?_⟩
    rintro ⟨first, lines, rest, hhead⟩
    exact absurd hhead.text (find_eq_none hs first _)
  · rcases Nat.lt_or_ge i (2 ^ 31) with hi | hi
    · obtain ⟨fuel, hfuel⟩ := runCheckRequest_of_short hs hi h
      exact ⟨fuel, checkRequest s, hfuel, checkRequest_iff hs⟩
    · have hfirst : ¬ LongFirst s i := fun hfirst => h ⟨i, hs, Or.inl hfirst⟩
      rw [LongFirst, not_and, Classical.not_imp, not_or] at hfirst
      obtain ⟨hlen, hline, hhead⟩ := hfirst hi
      refine ⟨0, false, ?_, fun h => (Bool.false_ne_true h).elim, fun h => absurd h hhead⟩
      rw [runCheckRequest_wraps (wraps_of_long hs hi hlen), if_neg hline]

/-- Below 4 GiB it does so nowhere else. -/
theorem not_checksHead_of_long {s : Bytes} (hlen : s.length < 2 ^ 32) (h : LongHead s) :
    ¬ ChecksHead s := by
  rintro ⟨fuel, accepted, hrun, haccepted⟩
  obtain ⟨i, hs, ⟨hi, hfirst⟩ | ⟨hline, hknown, hlong⟩⟩ := h
  · rw [runCheckRequest_wraps (wraps_of_long hs hi hlen)] at hrun
    split at hrun
    · exact absurd (Option.some.inj hrun).symm (Option.some_ne_none _)
    · next hline =>
      obtain rfl : false = accepted := Option.some.inj (Option.some.inj hrun)
      exact absurd (haccepted.mpr ((hfirst hlen).resolve_left hline)) Bool.false_ne_true
  · have hle := length_of_longHeaders hlong
    rw [List.length_drop] at hle
    have hmethod := (method_known_iff hline).mpr hknown
    rw [runCheckRequest_some hs (by omega), if_neg (by simp [hline]), if_neg (by simp [hmethod])] at hrun
    refine headersLoop_of_long hlong ?_ fuel accepted hrun
    rw [List.length_drop]
    omega

/-- **The check accepts exactly the complete heads**, and it returns, where no line end out of the
range of `int` matters; and below 4 GiB nowhere else. -/
theorem checksHead_iff (s : Bytes) :
    (¬ LongHead s → ChecksHead s) ∧ (s.length < 2 ^ 32 → (ChecksHead s ↔ ¬ LongHead s)) :=
  ⟨checksHead_of_short, fun hlen =>
    ⟨fun hchecks hlong => not_checksHead_of_long hlen hlong hchecks, checksHead_of_short⟩⟩

/-- The theorem at a request with one header line. -/
theorem checksHead_host : ChecksHead (str "GET / HTTP/1.1\r\nHost: a\r\n\r\n") :=
  (checksHead_iff _).1 (not_longHead (by decide))

/-- A request line with a target of any length. -/
def lineOf (n : Nat) : Bytes :=
  str "GET" ++ (' ' : Byte) :: (str "/" ++ (List.replicate n ('a' : Byte) ++ str " HTTP/1.1"))

theorem completeHead_lineOf (n : Nat) : CompleteHead (lineOf n ++ crlf ++ crlf) (lineOf n) [] [] where
  text := by rw [render, List.flatMap_nil, List.nil_append, List.append_nil]
  whole := fun h => by
    have hcr : ('\r' : Byte) ∈ lineOf n := h.subset List.mem_cons_self
    simp only [lineOf, List.mem_append, List.mem_cons, List.mem_replicate] at hcr
    rcases hcr with h | h | h | ⟨-, h⟩ | h <;> exact absurd h (by decide)
  checked := by
    have hline : lineOf n ++ crlf = str "GET" ++ (str " " ++ (str "/" ++
        (List.replicate n ('a' : Byte) ++ (str " HTTP/1.1\r\n" ++ [])))) := by
      simp [lineOf, crlf, str]
    have hin {r : Regex Byte} {w : Bytes} (h : r.isMatch w = true) : w ∈ r.language :=
      (Regex.isMatch_iff r w).mp h
    rw [checkRequestLine, Bool.or_eq_true, Regex.isMatch_iff, hline]
    refine Or.inl (Regex.mem_seq_cons.mpr ⟨_, _, rfl, hin (by decide +kernel), ?_⟩)
    refine Regex.mem_seq_cons.mpr ⟨_, _, rfl, hin (by decide +kernel), ?_⟩
    refine Regex.mem_seq_cons.mpr ⟨_, _, rfl, hin (by decide +kernel), ?_⟩
    refine Regex.mem_seq_cons.mpr ⟨_, _, rfl, Regex.mem_star_any _, ?_⟩
    exact Regex.mem_seq_cons.mpr ⟨_, _, rfl, hin (by decide +kernel), rfl⟩
  known := by
    rw [lineOf, methodName_blank (by decide)]
    decide
  lines := fun _ h => absurd h List.not_mem_nil

/-- A head of a request line of 2 GiB alone is complete, but the code looks at the whole string as
its first line, and rejects it. -/
theorem not_checksHead_long : ¬ ∀ s, ChecksHead s := by
  obtain ⟨n, hn⟩ : ∃ n, n = 2 ^ 31 := ⟨_, rfl⟩
  have hhead := completeHead_lineOf n
  have hlen : (lineOf n).length = n + 14 := by
    simp [lineOf, str]
  have hfound : find crlf (lineOf n ++ crlf ++ crlf) = some (lineOf n).length := by
    rw [List.append_assoc]
    exact find_crlf_line hhead.whole crlf
  refine fun h => not_checksHead_of_long ?_ ⟨_, hfound, Or.inl ⟨?_, fun _ => Or.inr ⟨_, _, _, hhead⟩⟩⟩ (h _)
  · rw [List.length_append, List.length_append, hlen, crlf, List.length_cons, List.length_singleton]
    omega
  · omega

end Utils

end LowKeyWebServer
