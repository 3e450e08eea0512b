import Mathlib.Computability.Language

/-!
# Regular expressions over character classes

A `Regex α` is built from *classes* (decidable predicates on the alphabet) by
concatenation, alternation and star. Mathlib's `RegularExpression` has single
letters only; a class keeps a pattern such as `[A-Za-z]` one node, whatever the
size of the alphabet.

* `language` is the denotation, in Mathlib's `Language`;
* `isMatch` is the matcher by Brzozowski derivatives, with smart constructors
  that drop the dead branches, so that it can be run on concrete input;
* `isMatch_iff` is the correctness theorem: the two agree.

A *full match* (`isMatch`) accepts the whole word, a *search* (`isSearch`) some
factor of it.
-/

universe u

/-- Regular expressions over the alphabet `α`. -/
inductive Regex (α : Type u) : Type u where
  /-- the empty language -/
  | empty : Regex α
  /-- the empty word -/
  | epsilon : Regex α
  /-- one letter of the class -/
  | cls : (α → Bool) → Regex α
  /-- concatenation -/
  | cat : Regex α → Regex α → Regex α
  /-- alternation -/
  | alt : Regex α → Regex α → Regex α
  /-- iteration, zero or more times -/
  | star : Regex α → Regex α

namespace Regex

variable {α : Type u}

/-! ## Derived forms -/

/-- Any letter: the pattern `.`. -/
def any : Regex α := cls fun _ => true

/-- One or more iterations: the pattern `r+`. -/
def plus (r : Regex α) : Regex α := cat r (star r)

/-- The concatenation of a list of patterns. -/
def seq : List (Regex α) → Regex α
  | [] => epsilon
  | r :: rs => cat r (seq rs)

/-- The literal word `w`. -/
def word [DecidableEq α] (w : List α) : Regex α := seq (w.map fun a => cls fun b => decide (b = a))

/-! ## Denotation -/

/-- The language of a regular expression. -/
def language : Regex α → Language α
  | empty => 0
  | epsilon => 1
  | cls p => {w | ∃ a, p a = true ∧ w = [a]}
  | cat r s => r.language * s.language
  | alt r s => r.language + s.language
  | star r => KStar.kstar r.language

theorem notMem_empty (w : List α) : w ∉ (empty : Regex α).language :=
  Language.notMem_zero w

theorem mem_cls {p : α → Bool} {w : List α} :
    w ∈ (cls p).language ↔ ∃ a, p a = true ∧ w = [a] := Iff.rfl

theorem mem_cat {r s : Regex α} {w : List α} :
    w ∈ (cat r s).language ↔ ∃ u v, w = u ++ v ∧ u ∈ r.language ∧ v ∈ s.language := by
  rw [language, Language.mem_mul]
  constructor
  · rintro ⟨u, hu, v, hv, rfl⟩
    exact ⟨u, v, rfl, hu, hv⟩
  · rintro ⟨u, v, rfl, hu, hv⟩
    exact ⟨u, hu, v, hv, rfl⟩

theorem mem_alt {r s : Regex α} {w : List α} :
    w ∈ (alt r s).language ↔ w ∈ r.language ∨ w ∈ s.language := Iff.rfl

theorem nil_mem_star (r : Regex α) : [] ∈ (star r).language :=
  Language.nil_mem_kstar _

/-- A non-empty word of `r*` starts with a non-empty word of `r`. -/
theorem cons_mem_star {r : Regex α} {a : α} {w : List α} :
    a :: w ∈ (star r).language ↔
      ∃ u v, w = u ++ v ∧ a :: u ∈ r.language ∧ v ∈ (star r).language := by
  rw [language, Language.mem_kstar_iff_exists_nonempty]
  constructor
  · rintro ⟨L, hL, hmem⟩
    rcases L with - | ⟨x, L⟩
    · cases hL
    · obtain ⟨hx, hne⟩ := hmem x List.mem_cons_self
      rcases x with - | ⟨b, u⟩
      · exact absurd rfl hne
      · rw [List.flatten_cons, List.cons_append, List.cons.injEq] at hL
        obtain ⟨rfl, rfl⟩ := hL
        exact ⟨u, L.flatten, rfl, hx,
          Language.join_mem_kstar fun y hy => (hmem y (List.mem_cons_of_mem _ hy)).1⟩
  · rintro ⟨u, v, rfl, hu, hv⟩
    obtain ⟨L, rfl, hmem⟩ := Language.mem_kstar_iff_exists_nonempty.mp hv
    refine ⟨(a :: u) :: L, rfl, fun y hy => ?_⟩
    rcases List.mem_cons.mp hy with rfl | hy
    · exact ⟨hu, List.cons_ne_nil _ _⟩
    · exact hmem y hy

/-! ## The matcher -/

/-- Whether the empty word matches. -/
def nullable : Regex α → Bool
  | empty => false
  | epsilon => true
  | cls _ => false
  | cat r s => r.nullable && s.nullable
  | alt r s => r.nullable || s.nullable
  | star _ => true

/-- Concatenation that drops a dead left branch. -/
def mkCat : Regex α → Regex α → Regex α
  | empty, _ => empty
  | epsilon, s => s
  | r, s => cat r s

/-- Alternation that drops a dead branch. -/
def mkAlt : Regex α → Regex α → Regex α
  | empty, s => s
  | r, empty => r
  | r, s => alt r s

/-- The Brzozowski derivative: `deriv r a` matches `w` when `r` matches `a :: w`. -/
def deriv : Regex α → α → Regex α
  | empty, _ => empty
  | epsilon, _ => empty
  | cls p, a => if p a then epsilon else empty
  | cat r s, a =>
    if r.nullable then mkAlt (mkCat (r.deriv a) s) (s.deriv a) else mkCat (r.deriv a) s
  | alt r s, a => mkAlt (r.deriv a) (s.deriv a)
  | star r, a => mkCat (r.deriv a) (star r)

/-- Full match: the whole word is in the language. -/
def isMatch (r : Regex α) : List α → Bool
  | [] => r.nullable
  | a :: w => (r.deriv a).isMatch w

/-- Search: some factor of the word is in the language. -/
def isSearch (r : Regex α) (w : List α) : Bool :=
  (cat (star any) (cat r (star any))).isMatch w

/-! ## Correctness -/

theorem nullable_iff (r : Regex α) : r.nullable = true ↔ [] ∈ r.language := by
  induction r with
  | empty => simp [nullable, language]
  | epsilon => simp [nullable, language]
  | cls p => simp [nullable, mem_cls]
  | cat r s ihr ihs =>
    rw [nullable, Bool.and_eq_true, ihr, ihs, mem_cat]
    constructor
    · rintro ⟨hr, hs⟩
      exact ⟨[], [], rfl, hr, hs⟩
    · rintro ⟨u, v, huv, hr, hs⟩
      obtain ⟨rfl, rfl⟩ := List.append_eq_nil_iff.mp huv.symm
      exact ⟨hr, hs⟩
  | alt r s ihr ihs => rw [nullable, Bool.or_eq_true, ihr, ihs, mem_alt]
  | star r _ => simp only [nullable, nil_mem_star]

theorem language_mkCat (r s : Regex α) : (mkCat r s).language = (cat r s).language := by
  cases r <;> simp [mkCat, language]

theorem mem_mkAlt {r s : Regex α} {w : List α} :
    w ∈ (mkAlt r s).language ↔ w ∈ r.language ∨ w ∈ s.language := by
  cases r <;> cases s <;> simp [mkAlt, mem_alt, notMem_empty]

/-- The concatenation case of `mem_deriv`: the first letter is read by `r`, or `r`
matches the empty word and it is read by `s`. -/
theorem cons_mem_cat {r s : Regex α} {a : α} {w : List α} :
    a :: w ∈ (cat r s).language ↔
      (∃ u v, w = u ++ v ∧ a :: u ∈ r.language ∧ v ∈ s.language) ∨
        ([] ∈ r.language ∧ a :: w ∈ s.language) := by
  rw [mem_cat]
  constructor
  · rintro ⟨u, v, huv, hu, hv⟩
    rcases u with - | ⟨b, u⟩
    · rw [List.nil_append] at huv
      exact Or.inr ⟨hu, huv ▸ hv⟩
    · rw [List.cons_append, List.cons.injEq] at huv
      obtain ⟨rfl, rfl⟩ := huv
      exact Or.inl ⟨u, v, rfl, hu, hv⟩
  · rintro (⟨u, v, rfl, hu, hv⟩ | ⟨hr, hs⟩)
    · exact ⟨a :: u, v, rfl, hu, hv⟩
    · exact ⟨[], a :: w, rfl, hr, hs⟩

/-- The derivative denotes the left quotient of the language. -/
theorem mem_deriv (r : Regex α) (a : α) (w : List α) :
    w ∈ (r.deriv a).language ↔ a :: w ∈ r.language := by
  induction r generalizing w with
  | empty => simp [deriv, language]
  | epsilon => simp [deriv, language]
  | cls p =>
    rw [deriv, mem_cls]
    by_cases hp : p a
    · simp [hp, language]
    · simp [hp, language]
  | cat r s ihr ihs =>
    have hcat : w ∈ (cat (r.deriv a) s).language ↔
        ∃ u v, w = u ++ v ∧ a :: u ∈ r.language ∧ v ∈ s.language := by
      simp only [mem_cat, ihr]
    rw [cons_mem_cat, ← nullable_iff]
    by_cases hn : r.nullable
    · rw [deriv, if_pos hn, mem_mkAlt, language_mkCat, hcat, ihs]
      simp [hn]
    · rw [deriv, if_neg hn, language_mkCat, hcat]
      simp [hn]
  | alt r s ihr ihs => rw [deriv, mem_mkAlt, mem_alt, ihr, ihs]
  | star r ih =>
    rw [deriv, language_mkCat, cons_mem_star, mem_cat]
    simp only [ih]

/-- **The matcher is correct**: it accepts exactly the words of the language. -/
theorem isMatch_iff (r : Regex α) (w : List α) : r.isMatch w = true ↔ w ∈ r.language := by
  induction w generalizing r with
  | nil => exact nullable_iff r
  | cons a w ih => rw [isMatch, ih, mem_deriv]

/-! ## Words of the derived forms -/

theorem mem_star_cls {p : α → Bool} {w : List α} :
    w ∈ (star (cls p)).language ↔ ∀ a ∈ w, p a = true := by
  induction w with
  | nil => simp [nil_mem_star]
  | cons a w ih =>
    rw [cons_mem_star]
    constructor
    · rintro ⟨u, v, rfl, hu, hv⟩
      obtain ⟨b, hb, hab⟩ := mem_cls.mp hu
      obtain ⟨rfl, rfl⟩ := List.cons.inj hab
      rw [List.nil_append] at ih
      rw [List.nil_append, List.forall_mem_cons]
      exact ⟨hb, ih.mp hv⟩
    · intro h
      rw [List.forall_mem_cons] at h
      exact ⟨[], w, rfl, ⟨a, h.1, rfl⟩, ih.mpr h.2⟩

theorem mem_star_any (w : List α) : w ∈ (star (any : Regex α)).language := by
  rw [any, mem_star_cls]
  exact fun _ _ => rfl

theorem mem_plus_cls {p : α → Bool} {w : List α} :
    w ∈ (plus (cls p)).language ↔ w ≠ [] ∧ ∀ a ∈ w, p a = true := by
  rw [plus, mem_cat]
  constructor
  · rintro ⟨u, v, rfl, ⟨a, ha, rfl⟩, hv⟩
    rw [List.singleton_append, List.forall_mem_cons]
    exact ⟨List.cons_ne_nil _ _, ha, mem_star_cls.mp hv⟩
  · rintro ⟨hne, h⟩
    rcases w with - | ⟨a, w⟩
    · exact absurd rfl hne
    · rw [List.forall_mem_cons] at h
      exact ⟨[a], w, rfl, ⟨a, h.1, rfl⟩, mem_star_cls.mpr h.2⟩

theorem mem_seq_nil {w : List α} : w ∈ (seq []).language ↔ w = [] := Iff.rfl

theorem mem_seq_cons {r : Regex α} {rs : List (Regex α)} {w : List α} :
    w ∈ (seq (r :: rs)).language ↔ ∃ u v, w = u ++ v ∧ u ∈ r.language ∧ v ∈ (seq rs).language :=
  mem_cat

/-- A literal matches itself. -/
theorem mem_word [DecidableEq α] {l w : List α} : w ∈ (word l).language ↔ w = l := by
  rw [word]
  induction l generalizing w with
  | nil => exact mem_seq_nil
  | cons a l ih =>
    rw [List.map_cons, mem_seq_cons]
    constructor
    · rintro ⟨u, v, rfl, ⟨b, hb, rfl⟩, hv⟩
      rw [of_decide_eq_true hb, ih.mp hv]
      rfl
    · rintro rfl
      exact ⟨[a], l, rfl, ⟨a, decide_eq_true rfl, rfl⟩, ih.mpr rfl⟩

/-- **Search is correct**: it accepts exactly the words with a factor in the language. -/
theorem isSearch_iff (r : Regex α) (w : List α) :
    r.isSearch w = true ↔ ∃ u v t, w = u ++ v ++ t ∧ v ∈ r.language := by
  rw [isSearch, isMatch_iff, mem_cat]
  constructor
  · rintro ⟨u, x, rfl, -, hx⟩
    obtain ⟨v, t, rfl, hv, -⟩ := mem_cat.mp hx
    exact ⟨u, v, t, by rw [List.append_assoc], hv⟩
  · rintro ⟨u, v, t, rfl, hv⟩
    exact ⟨u, v ++ t, by rw [List.append_assoc], mem_star_any u,
      mem_cat.mpr ⟨v, t, rfl, hv, mem_star_any t⟩⟩

end Regex
