import LowKeyWebServer.StaticContent

/-!
# The media type of a URI

`configParser` searches the whole URI for letters behind a slash with an extension behind them,
one extension after the other. `followsName_iff` says for which URIs that is the type of the file
name, the segment behind the last slash.
-/

namespace LowKeyWebServer

namespace StaticFileHandler

/-- The class `[a-zA-Z]`. -/
def isLetter (c : Byte) : Bool := ('A' ≤ c && c ≤ 'Z') || ('a' ≤ c && c ≤ 'z')

/-- The extensions of each type, in the order in which `configParser` looks for them. -/
def extensions : Nat → List Bytes
  | 0 => [str ".ico"]
  | 1 => [str ".txt", str ".html"]
  | 2 => [str ".png"]
  | 3 => [str ".jpg"]
  | _ => []

/-- A segment of the URI begins with letters and one of the extensions. -/
def Marked (k : Nat) (uri : Bytes) : Prop :=
  ∃ ext ∈ extensions k, ∃ u name t, uri = u ++ ('/' : Byte) :: (name ++ (ext ++ t)) ∧
    name ≠ [] ∧ ∀ c ∈ name, isLetter c = true

/-- The file name ends in one of the extensions. -/
def HasExtension (k : Nat) (uri : Bytes) : Prop := ∃ ext ∈ extensions k, ext <:+ (splitPath uri).2

instance (k : Nat) (uri : Bytes) : Decidable (HasExtension k uri) := by
  unfold HasExtension
  infer_instance

/-- The type is 1, 2 or 3 exactly where the file name says so. -/
def FollowsName (uri : Bytes) : Prop :=
  ∀ k : Nat, 1 ≤ k → k ≤ 3 → (configParser uri = k ↔ HasExtension k uri)

/-- The first extension that is found is that of the file name. -/
def FoundFirst (k : Nat) (uri : Bytes) : Prop := Marked k uri ∧ ∀ j < k, ¬ Marked j uri

/-- The extension of the file name stands behind letters at the front of a segment, with none
searched for before it; and if the name has none of them, then no segment has one in this
place, or one has the icon's. -/
structure PlainSegments (uri : Bytes) : Prop where
  named : ∀ k, 1 ≤ k → k ≤ 3 → HasExtension k uri → FoundFirst k uri
  unnamed : (∀ k, 1 ≤ k → k ≤ 3 → ¬ HasExtension k uri) →
    Marked 0 uri ∨ ∀ k, 1 ≤ k → k ≤ 3 → ¬ Marked k uri

/-! ## The searches -/

/-- A search for a pattern behind letters. -/
theorem isSearch_fileName {more : Regex Byte} {uri : Bytes} :
    (fileName more).isSearch uri = true ↔ ∃ ext ∈ more.language, ∃ u name t,
      uri = u ++ ('/' : Byte) :: (name ++ (ext ++ t)) ∧ name ≠ [] ∧ ∀ c ∈ name, isLetter c = true := by
  rw [Regex.isSearch_iff]
  refine ⟨?_, ?_⟩
  · rintro ⟨u, v, t, rfl, hv⟩
    obtain ⟨slash, v, rfl, hslash, hv⟩ := Regex.mem_seq_cons.mp hv
    obtain ⟨name, v, rfl, hname, hv⟩ := Regex.mem_seq_cons.mp hv
    obtain ⟨ext, v, rfl, hext, hend⟩ := Regex.mem_seq_cons.mp hv
    obtain rfl := Regex.mem_word.mp hslash
    obtain rfl := Regex.mem_seq_nil.mp hend
    obtain ⟨hne, hletters⟩ := Regex.mem_plus_cls.mp hname
    refine ⟨ext, hext, u, name, t, ?_, hne, hletters⟩
    simp [str]
  · rintro ⟨ext, hext, u, name, t, rfl, hne, hletters⟩
    refine ⟨u, str "/" ++ (name ++ (ext ++ [])), t, by simp [str], ?_⟩
    refine Regex.mem_seq_cons.mpr ⟨_, _, rfl, Regex.mem_word.mpr rfl, ?_⟩
    refine Regex.mem_seq_cons.mpr ⟨_, _, rfl, Regex.mem_plus_cls.mpr ⟨hne, hletters⟩, ?_⟩
    exact Regex.mem_seq_cons.mpr ⟨_, _, rfl, hext, Regex.mem_seq_nil.mpr rfl⟩

theorem isSearch_word {ext uri : Bytes} {k : Nat} (hk : extensions k = [ext]) :
    (fileName (.word ext)).isSearch uri = true ↔ Marked k uri := by
  simp only [isSearch_fileName, Regex.mem_word, Marked, hk, List.mem_singleton]

theorem isSearch_text {uri : Bytes} :
    (fileName (.cat (.word (str ".")) (.alt (.word (str "txt")) (.word (str "html"))))).isSearch
      uri = true ↔ Marked 1 uri := by
  have hmem : ∀ ext : Bytes, ext ∈ (Regex.cat (.word (str "."))
      (.alt (.word (str "txt")) (.word (str "html")))).language ↔ ext ∈ extensions 1 := by
    intro ext
    simp only [Regex.mem_cat, Regex.mem_alt, Regex.mem_word, extensions, List.mem_cons,
      List.not_mem_nil, or_false]
    refine ⟨?_, ?_⟩
    · rintro ⟨-, v, rfl, rfl, rfl | rfl⟩
      · exact Or.inl rfl
      · exact Or.inr rfl
    · rintro (rfl | rfl)
      · exact ⟨_, _, rfl, rfl, Or.inl rfl⟩
      · exact ⟨_, _, rfl, rfl, Or.inr rfl⟩
  simp only [isSearch_fileName, hmem, Marked]

/-! ## The type -/

/-- No two types are found first. -/
theorem FoundFirst.unique {j k : Nat} {uri : Bytes} (hj : FoundFirst j uri) (hk : FoundFirst k uri) :
    j = k := by
  by_contra hne
  rcases Nat.lt_or_gt_of_ne hne with hlt | hgt
  · exact hk.2 j hlt hj.1
  · exact hj.2 k hgt hk.1

/-- Without an icon some type is found first, where any is. -/
theorem not_foundFirst_iff {uri : Bytes} : (∀ k, 1 ≤ k → k ≤ 3 → ¬ FoundFirst k uri) ↔
    Marked 0 uri ∨ ∀ k, 1 ≤ k → k ≤ 3 → ¬ Marked k uri := by
  refine ⟨fun hnone => ?_, ?_⟩
  · by_contra hsome
    rw [not_or] at hsome
    obtain ⟨hicon, hmarked⟩ := hsome
    refine hmarked fun k => ?_
    -- the least type that is marked is found first
    induction k using Nat.strong_induction_on with
    | _ k ih =>
      intro hlow hhigh hk
      refine hnone k hlow hhigh ⟨hk, fun j hj hjmarked => ?_⟩
      rcases Nat.eq_zero_or_pos j with rfl | hpos
      · exact hicon hjmarked
      · exact ih j hj hpos (by omega) hjmarked
  · rintro (hicon | hnone) k hlow hhigh hfirst
    · exact hfirst.2 0 hlow hicon
    · exact hnone k hlow hhigh hfirst.1

/-- **`configParser`** gives the type that is found first. -/
theorem configParser_eq_iff {uri : Bytes} (huri : uri.getLast? ≠ some ('/' : Byte)) {k : Nat}
    (hlow : 1 ≤ k) (hhigh : k ≤ 3) : configParser uri = k ↔ FoundFirst k uri := by
  have hdir : ¬ (Regex.cat (.star (.cls fun c : Byte => c != '\n' && c != '\r'))
      (.word (str "/"))).isMatch uri = true := by
    intro hmatch
    refine huri (getLast?_of_directory ?_)
    rw [configParser, if_pos hmatch]
  have hicon : (fileName (.word (str ".ico"))).isSearch uri = true ↔ Marked 0 uri := isSearch_word rfl
  have hpng : (fileName (.word (str ".png"))).isSearch uri = true ↔ Marked 2 uri := isSearch_word rfl
  have hjpg : (fileName (.word (str ".jpg"))).isSearch uri = true ↔ Marked 3 uri := isSearch_word rfl
  have htext : _ ↔ Marked 1 uri := isSearch_text
  rw [configParser, if_neg hdir]
  obtain rfl | rfl | rfl : k = 1 ∨ k = 2 ∨ k = 3 := by omega
  all_goals
    simp only [FoundFirst, Nat.forall_lt_succ_right, Nat.not_lt_zero, false_implies, implies_true,
      true_and, ← hicon, ← htext, ← hpng, ← hjpg]
    split_ifs <;> simp [*]

theorem followsName_iff_foundFirst {uri : Bytes} (huri : uri.getLast? ≠ some ('/' : Byte)) :
    FollowsName uri ↔ ∀ k, 1 ≤ k → k ≤ 3 → (FoundFirst k uri ↔ HasExtension k uri) :=
  forall_congr' fun k => forall_congr' fun hlow => forall_congr' fun hhigh => by
    rw [configParser_eq_iff huri hlow hhigh]

theorem followsName_of_segments {uri : Bytes} (huri : uri.getLast? ≠ some ('/' : Byte))
    (h : PlainSegments uri) : FollowsName uri := by
  rw [followsName_iff_foundFirst huri]
  intro k hlow hhigh
  refine ⟨fun hk => ?_, h.named k hlow hhigh⟩
  by_contra hother
  -- the name has no extension, or another type is found first too
  refine not_foundFirst_iff.mpr (h.unnamed fun j hj hj3 hname => ?_) k hlow hhigh hk
  rw [(h.named j hj hj3 hname).unique hk] at hname
  exact hother hname

/-- **The media type** of a URI that does not end in a slash is that of its file name exactly
where no segment is in the way. -/
theorem followsName_iff {uri : Bytes} (huri : uri.getLast? ≠ some ('/' : Byte)) :
    FollowsName uri ↔ PlainSegments uri := by
  refine ⟨fun h => ?_, followsName_of_segments huri⟩
  rw [followsName_iff_foundFirst huri] at h
  refine ⟨fun k hlow hhigh => (h k hlow hhigh).mpr, fun hnone => ?_⟩
  exact not_foundFirst_iff.mp fun k hlow hhigh hk => hnone k hlow hhigh ((h k hlow hhigh).mp hk)

section Plain

variable {dir name ext : Bytes} {j k : Nat}

theorem extensions_lt (h : ext ∈ extensions k) : k < 4 := by
  by_contra hk
  obtain ⟨n, rfl⟩ := Nat.exists_eq_add_of_le' (Nat.not_lt.mp hk)
  exact absurd h List.not_mem_nil

/-- An extension has one dot, at its front. -/
theorem extensions_dot (h : ext ∈ extensions k) :
    ∃ rest, ext = ('.' : Byte) :: rest ∧ ('.' : Byte) ∉ rest := by
  have hall : ∀ k < 4, ∀ ext ∈ extensions k,
      ext.head? = some ('.' : Byte) ∧ ('.' : Byte) ∉ ext.tail := by decide
  obtain ⟨hhead, htail⟩ := hall k (extensions_lt h) ext h
  obtain ⟨rest, rfl⟩ := List.head?_eq_some_iff.mp hhead
  exact ⟨rest, rfl, htail⟩

/-- No extension begins one of another type. -/
theorem extensions_prefix {ext' : Bytes} (hj : ext ∈ extensions j) (hk : ext' ∈ extensions k)
    (h : ext <+: ext') : j = k := by
  have hall : ∀ j < 4, ∀ k < 4, ∀ ext ∈ extensions j, ∀ ext' ∈ extensions k, ext <+: ext' → j = k := by
    decide
  exact hall j (extensions_lt hj) k (extensions_lt hk) ext hj ext' hk h

/-- Where there is one dot, there is one extension. -/
theorem extension_unique {ext' x y t : Bytes} (hj : ext ∈ extensions j) (hk : ext' ∈ extensions k)
    (hy : ('.' : Byte) ∉ y) (h : x ++ (ext ++ t) = y ++ ext') : j = k := by
  obtain ⟨rest, rfl, -⟩ := extensions_dot hj
  obtain ⟨rest', rfl, hrest'⟩ := extensions_dot hk
  obtain rfl | ⟨v, rfl, -⟩ := last_split h.symm hrest'
  · exact extensions_prefix hj hk ⟨t, List.append_cancel_left h⟩
  · exact absurd (List.mem_append_right _ List.mem_cons_self) hy

/-- **Where they agree**: a name of letters, in directories without dots. -/
theorem followsName_of_plain (hlow : 1 ≤ k) (hext : ext ∈ extensions k) (hne : name ≠ [])
    (hname : ∀ c ∈ name, isLetter c = true) (hdir : ('.' : Byte) ∉ dir) :
    FollowsName (dir ++ ('/' : Byte) :: (name ++ ext)) := by
  have hhigh : k ≤ 3 := Nat.le_of_lt_succ (extensions_lt hext)
  have hdot : ('.' : Byte) ∉ dir ++ ('/' : Byte) :: name := by
    rw [List.mem_append, List.mem_cons, not_or, not_or]
    exact ⟨hdir, by decide, fun hmem => absurd (hname _ hmem) (by decide)⟩
  have hslash : ('/' : Byte) ∈ dir ++ ('/' : Byte) :: (name ++ ext) :=
    List.mem_append_right _ List.mem_cons_self
  have hend : ('/' : Byte) ∉ name ++ ext := by
    have hall : ∀ k < 4, ∀ ext ∈ extensions k, ('/' : Byte) ∉ ext := by decide
    rw [List.mem_append, not_or]
    exact ⟨fun hmem => absurd (hname _ hmem) (by decide), hall k (extensions_lt hext) ext hext⟩
  have hfile : (splitPath (dir ++ ('/' : Byte) :: (name ++ ext))).2 = name ++ ext := by
    obtain ⟨hsplit, hnot⟩ := splitPath_slash hslash
    rcases last_split hsplit hend with hfirst | ⟨v, -, hlast⟩
    · rw [hfirst] at hsplit
      exact (List.cons.inj (List.append_cancel_left hsplit)).2.symm
    · exact absurd (hlast ▸ List.mem_append_right _ List.mem_cons_self) hnot
  -- no other extension is in the URI
  have hmarked : ∀ j, Marked j (dir ++ ('/' : Byte) :: (name ++ ext)) → j = k := by
    rintro j ⟨ext', hj, u, name', t, heq, -⟩
    refine extension_unique (x := u ++ ('/' : Byte) :: name') (t := t) hj hext hdot ?_
    simpa using heq.symm
  have hhas : ∀ j, HasExtension j (dir ++ ('/' : Byte) :: (name ++ ext)) → j = k := by
    rintro j ⟨ext', hj, x, heq⟩
    rw [hfile] at heq
    refine extension_unique (x := x) (y := name) (t := []) hj hext (fun hmem => hdot ?_) ?_
    · exact List.mem_append_right _ (List.mem_cons_of_mem _ hmem)
    · rw [List.append_nil, heq]
  refine followsName_of_segments ?_ ⟨fun i _ _ hi => ?_, fun hnone => ?_⟩
  · rw [List.getLast?_append_of_ne_nil _ (List.cons_ne_nil _ _)]
    intro hlast
    rw [List.getLast?_cons_of_ne_nil (List.append_ne_nil_of_left_ne_nil hne _)] at hlast
    exact hend (List.mem_of_getLast? hlast)
  · rw [hhas i hi]
    refine ⟨⟨ext, hext, dir, name, [], by rw [List.append_nil], hne, hname⟩, fun j hj hmark => ?_⟩
    exact absurd (hmarked j hmark) (Nat.ne_of_lt hj)
  · exact absurd ⟨ext, hext, by rw [hfile]; exact List.suffix_append _ _⟩ (hnone k hlow hhigh)

end Plain

/-- A page in a directory. -/
theorem followsName_page : FollowsName (str "/static/a.html") := by
  have huri : (str "/static/a.html").getLast? ≠ some ('/' : Byte) := by decide
  have hfirst : FoundFirst 1 (str "/static/a.html") :=
    (configParser_eq_iff huri (by decide) (by decide)).mp (by decide)
  have hname : ∀ k < 4, HasExtension k (str "/static/a.html") → k = 1 := by decide
  refine (followsName_iff huri).mpr ⟨fun k _ hhigh hk => ?_, fun hnone => ?_⟩
  · rwa [hname k (by omega) hk]
  · exact absurd (by decide) (hnone 1 (by decide) (by decide))

/-- A digit in the name of a file hides its extension. -/
theorem not_followsName_digit :
    ¬ ∀ uri : Bytes, uri.getLast? ≠ some ('/' : Byte) → FollowsName uri := by
  intro h
  have htype : configParser (str "/static/file1.txt") = 4 := by decide
  have hname : HasExtension 1 (str "/static/file1.txt") :=
    ⟨str ".txt", by decide, str "file1", rfl⟩
  have hone := (h _ (by decide) 1 (by decide) (by decide)).mpr hname
  rw [htype] at hone
  exact absurd hone (by decide)

end StaticFileHandler

end LowKeyWebServer
