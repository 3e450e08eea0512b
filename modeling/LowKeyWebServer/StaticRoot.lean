import LowKeyWebServer.ConfigPrint
import LowKeyWebServer.StaticRouting

/-!
# The root of a location

`StaticFileHandler::Init` takes the root from the printed block: from its first slash, up to the
three characters at its end. `storesRoot_iff` says in which blocks that is the block's root.
-/

namespace LowKeyWebServer

open NginxConfigParser

/-! ## The print of a block -/

theorem configToStr_append (depth : Nat) (cfg cfg' : NginxConfig) :
    configToStr depth (cfg ++ cfg') = configToStr depth cfg ++ configToStr depth cfg' := by
  induction cfg with
  | nil => rfl
  | cons s cfg ih => rw [List.cons_append, configToStr, configToStr, ih, List.append_assoc]

theorem toStr_ne_nil (depth : Nat) (s : NginxConfigStatement) : s.toStr depth ≠ [] := by
  rcases s with ⟨tokens, - | block⟩
  · rw [NginxConfigStatement.toStr]
    exact List.append_ne_nil_of_right_ne_nil _ (List.cons_ne_nil _ _)
  · rw [NginxConfigStatement.toStr]
    exact List.append_ne_nil_of_right_ne_nil _ (List.cons_ne_nil _ _)

theorem configToStr_eq_nil {depth : Nat} {cfg : NginxConfig} : configToStr depth cfg = [] ↔ cfg = [] := by
  rcases cfg with - | ⟨s, cfg⟩
  · exact iff_of_true rfl rfl
  · rw [configToStr]
    exact iff_of_false (List.append_ne_nil_of_left_ne_nil (toStr_ne_nil depth s) _)
      (List.cons_ne_nil _ _)

theorem slash_not_mem_indent (depth : Nat) : ('/' : Byte) ∉ indent depth := by
  induction depth with
  | zero => exact List.not_mem_nil
  | succ depth ih =>
    rw [indent, List.replicate_succ, List.flatten_cons, List.mem_append, not_or]
    exact ⟨by decide, ih⟩

theorem slash_mem_joinTokens (words : List Bytes) :
    ('/' : Byte) ∈ joinTokens words ↔ ∃ t ∈ words.map Token.word, ('/' : Byte) ∈ t.value := by
  induction words with
  | nil => simp [joinTokens]
  | cons w words ih =>
    rcases words with - | ⟨w', words⟩
    · simp [joinTokens, Token.value]
    · have hblank : ('/' : Byte) ∉ str " " := by decide
      rw [joinTokens, List.mem_append, List.mem_append, ih]
      · simp only [List.map_cons, List.mem_cons, exists_eq_or_imp, hblank, or_false, Token.value]
      · exact List.cons_ne_nil _ _

mutual

theorem slash_mem_toStr (depth : Nat) (s : NginxConfigStatement) :
    ('/' : Byte) ∈ s.toStr depth ↔ ∃ t ∈ statementTokens s, ('/' : Byte) ∈ t.value := by
  have hindent := slash_not_mem_indent depth
  have hsemicolon : ('/' : Byte) ∉ str ";" ∧ ('/' : Byte) ∉ str "\n" := by decide
  have hbraces : ('/' : Byte) ∉ str " \x7b\n" ∧ ('/' : Byte) ∉ str "\x7b" ∧ ('/' : Byte) ∉ str "\x7d" := by
    decide
  match s with
  | .mk tokens none =>
    rw [NginxConfigStatement.toStr, statementTokens]
    simp only [List.mem_append, slash_mem_joinTokens, hindent, hsemicolon, false_or, or_false,
      or_and_right, exists_or, List.mem_singleton, exists_eq_left, Token.value]
  | .mk tokens (some block) =>
    rw [NginxConfigStatement.toStr, statementTokens]
    simp only [List.mem_append, slash_mem_joinTokens, slash_mem_configToStr, hindent, hsemicolon,
      hbraces, false_or, or_false, List.mem_cons, List.not_mem_nil, or_and_right, exists_or,
      exists_eq_left, Token.value]

/-- **The print of a block** has the slashes of its words and no others. -/
theorem slash_mem_configToStr (depth : Nat) (cfg : List NginxConfigStatement) :
    ('/' : Byte) ∈ configToStr depth cfg ↔ ∃ t ∈ configTokens cfg, ('/' : Byte) ∈ t.value := by
  match cfg with
  | [] => simp [configToStr, configTokens]
  | s :: cfg =>
    rw [configToStr, configTokens, List.mem_append, slash_mem_toStr depth s,
      slash_mem_configToStr depth cfg]
    simp only [List.mem_append, or_and_right, exists_or]

end

namespace StaticFileHandler

variable {pre post : NginxConfig} {root location : Bytes} {locationToRoot : LocationToRoot}

/-- A block with a statement `root`. -/
def rootBlock (pre post : NginxConfig) (root : Bytes) : NginxConfig :=
  pre ++ .mk [str "root", Server.quote root] none :: post

/-- The root from its first slash on. -/
def fromSlash (root : Bytes) : Bytes := root.dropWhile fun c : Byte => c != '/'

/-- `Init` maps the location to the root, from its first slash on. -/
def StoresRoot (locationToRoot : LocationToRoot) (location root : Bytes) (config : NginxConfig) :
    Prop :=
  ∃ after, init locationToRoot (Server.quote location) config = some after ∧
    after[location]? = some (fromSlash root)

/-! ## The root in the print -/

theorem rootOf_eq {u v : Bytes} (hu : ('/' : Byte) ∉ u) (hv : 2 ≤ v.length) :
    rootOf (u ++ ('/' : Byte) :: v) = some ((('/' : Byte) :: v).take (v.length - 2)) := by
  have hfind : find (str "/") (u ++ ('/' : Byte) :: v) = some u.length := find_char_append hu v
  rw [rootOf, hfind, Option.map_some, List.drop_left, if_neg]
  · rfl
  · rw [List.length_cons]
    omega

theorem configToStr_rootBlock (pre post : NginxConfig) (root : Bytes) :
    configToStr 0 (rootBlock pre post root) =
      configToStr 0 pre ++ (str "root \"" ++ root ++ str "\";\n" ++ configToStr 0 post) := by
  rw [rootBlock, configToStr_append, configToStr]
  simp [NginxConfigStatement.toStr, indent, joinTokens, Server.quote, str]

/-- **The root is in the right place** where its statement is the last one and no slash is printed
before it. -/
theorem rootOf_rootBlock_iff (hroot : ('/' : Byte) ∈ root) :
    rootOf (configToStr 0 (rootBlock pre post root)) = some (fromSlash root) ↔
      post = [] ∧ ('/' : Byte) ∉ configToStr 0 pre := by
  obtain ⟨a, b, rfl, ha⟩ := List.eq_append_cons_of_mem hroot
  have hfrom : fromSlash (a ++ ('/' : Byte) :: b) = ('/' : Byte) :: b := by
    have hname : ∀ c ∈ a, (c != ('/' : Byte)) = true := fun c hc => bne_iff_ne.mpr fun h => ha (h ▸ hc)
    rw [fromSlash, List.dropWhile_append_of_pos hname]
    exact List.dropWhile_cons_of_neg (by simp)
  have hlengths : (str "root \"").length = 6 ∧ (str "\";\n").length = 3 := ⟨rfl, rfl⟩
  rw [configToStr_rootBlock, hfrom]
  by_cases hpre : ('/' : Byte) ∈ configToStr 0 pre
  · -- what is taken from an earlier slash on is longer than the root
    obtain ⟨u, v, huv, hu⟩ := List.eq_append_cons_of_mem hpre
    refine iff_of_false (fun h => ?_) fun h => h.2 hpre
    rw [huv, List.append_assoc, List.cons_append, rootOf_eq hu] at h
    · have hlen := congrArg List.length (Option.some.inj h)
      simp only [List.length_take, List.length_cons, List.length_append, hlengths] at hlen
      omega
    · simp only [List.length_append, hlengths]
      omega
  · have htext : configToStr 0 pre ++ (str "root \"" ++ (a ++ ('/' : Byte) :: b) ++ str "\";\n" ++
        configToStr 0 post) = (configToStr 0 pre ++ str "root \"" ++ a) ++
          ('/' : Byte) :: (b ++ (str "\";\n" ++ configToStr 0 post)) := by
      simp only [List.append_assoc, List.cons_append]
    have hbefore : ('/' : Byte) ∉ configToStr 0 pre ++ str "root \"" ++ a := by
      simp only [List.mem_append, not_or]
      exact ⟨⟨hpre, by decide⟩, ha⟩
    rw [htext, rootOf_eq hbefore (by simp only [List.length_append, hlengths]; omega),
      Option.some.injEq]
    refine ⟨fun h => ⟨?_, hpre⟩, ?_⟩
    · have hlen := congrArg List.length h
      simp only [List.length_take, List.length_cons, List.length_append, hlengths] at hlen
      have hnil : configToStr 0 post = [] := List.eq_nil_of_length_eq_zero (by omega)
      exact configToStr_eq_nil.mp hnil
    · rintro ⟨rfl, -⟩
      rw [configToStr, List.append_nil, List.length_append, hlengths.2]
      change ((('/' : Byte) :: b) ++ str "\";\n").take (('/' : Byte) :: b).length = _
      exact List.take_left

/-- `Init` stores what `rootOf` finds in the print. -/
theorem storesRoot_iff_rootOf {config : NginxConfig} :
    StoresRoot locationToRoot location root config ↔
      rootOf (configToStr 0 config) = some (fromSlash root) := by
  rw [StoresRoot, init, Server.unquote_quote]
  rcases rootOf (configToStr 0 config) with - | path
  · refine iff_of_false ?_ fun h => by cases h
    rintro ⟨after, h, -⟩
    cases h
  · refine ⟨?_, fun h => ⟨_, rfl, ?_⟩⟩
    · rintro ⟨after, hinit, hget⟩
      obtain rfl := Option.some.inj hinit
      rwa [Std.TreeMap.getElem?_insert_self] at hget
    · rw [Std.TreeMap.getElem?_insert_self, h]

/-- **The configured root** is stored exactly in a block whose last statement is the root's, with
no slash in the words before it. -/
theorem storesRoot_iff (hroot : ('/' : Byte) ∈ root) :
    StoresRoot locationToRoot location root (rootBlock pre post root) ↔
      post = [] ∧ ∀ t ∈ configTokens pre, ('/' : Byte) ∉ t.value := by
  have hslash : (∀ t ∈ configTokens pre, ('/' : Byte) ∉ t.value) ↔ ('/' : Byte) ∉ configToStr 0 pre := by
    simp only [slash_mem_configToStr, not_exists, not_and]
  rw [hslash, storesRoot_iff_rootOf, rootOf_rootBlock_iff hroot]

/-- A block with nothing but the root. -/
theorem storesRoot_files :
    StoresRoot ∅ (str "/static") (str "/files") (rootBlock [] [] (str "/files")) :=
  (storesRoot_iff (by decide)).mpr ⟨rfl, fun _ h => absurd h List.not_mem_nil⟩

/-- A statement behind the root becomes part of it. -/
theorem not_storesRoot_behind : ¬ ∀ (locationToRoot : LocationToRoot) (location root : Bytes)
    (pre post : NginxConfig), ('/' : Byte) ∈ root → Printable (rootBlock pre post root) →
    (∀ s ∈ pre ++ post, s.tokens.head? ≠ some (str "root")) →
    StoresRoot locationToRoot location root (rootBlock pre post root) := by
  intro h
  have hroot : NormalToken (str "root") := ⟨str "root;", _, rfl⟩
  have hfiles : NormalToken (Server.quote (str "/files")) := ⟨str "\"/files\";", _, rfl⟩
  have hindex : NormalToken (str "index") := ⟨str "index;", _, rfl⟩
  have hprintable : Printable (rootBlock [] [.mk [str "index"] none] (str "/files")) :=
    .simple (by simp) (by simpa using ⟨hroot, hfiles⟩) (.simple (by simp) (by simpa using hindex) .nil)
  have hone : ∀ s ∈ [] ++ [NginxConfigStatement.mk [str "index"] none],
      s.tokens.head? ≠ some (str "root") := by
    intro s hs
    rw [List.mem_singleton.mp hs]
    decide
  have hstores := h ∅ (str "/static") _ _ _ (by decide) hprintable hone
  have hplace := (rootOf_rootBlock_iff (by decide)).mp (storesRoot_iff_rootOf.mp hstores)
  exact absurd hplace.1 (List.cons_ne_nil _ _)

end StaticFileHandler

end LowKeyWebServer
