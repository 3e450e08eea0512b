import Mathlib.Data.List.Basic

/-!
# Searching the prefixes of a path

A path is cut at its separators: the whole path, and what stands before each separator, the
longest first (`cuts`).

The rules: `mem_cuts` (what the cuts are), `before_last` (how they are reached one by one, from
the last separator on) and `find?_longest` (the first cut with a property is the longest).
-/

universe u

namespace PrefixSearch

variable {α : Type u}

/-- **The first prefix with a property is the longest**, where they get shorter. -/
theorem find?_longest {l : List (List α)} {u : List α} {p : List α → Bool}
    (hl : l.Pairwise fun u v => v.length < u.length) (h : l.find? p = some u) :
    u ∈ l ∧ p u = true ∧ ∀ v ∈ l, p v = true → v.length ≤ u.length := by
  obtain ⟨hu, as, bs, rfl, hno⟩ := List.find?_eq_some_iff_append.mp h
  refine ⟨List.mem_append_right _ List.mem_cons_self, hu, fun v hv hpv => ?_⟩
  rw [List.pairwise_append] at hl
  rw [List.mem_append, List.mem_cons] at hv
  rcases hv with hv | rfl | hv
  · exact absurd hpv (by simpa using hno v hv)
  · exact Nat.le_refl _
  · exact Nat.le_of_lt ((List.pairwise_cons.mp hl.2.1).1 v hv)

variable [DecidableEq α] {sep : α}

/-- What stands before each separator, the longest first. -/
def before (sep : α) : List α → List (List α)
  | [] => []
  | c :: s => (before sep s).map (List.cons c) ++ if c = sep then [[]] else []

/-- The whole path, and what stands before each separator. -/
def cuts (sep : α) (s : List α) : List (List α) := s :: before sep s

theorem mem_before {s u : List α} : u ∈ before sep s ↔ ∃ t, s = u ++ sep :: t := by
  induction s generalizing u with
  | nil => simp [before]
  | cons c s ih =>
    rw [before, List.mem_append, List.mem_map]
    constructor
    · rintro (⟨v, hv, rfl⟩ | hu)
      · obtain ⟨t, rfl⟩ := ih.mp hv
        exact ⟨t, rfl⟩
      · split at hu
        · next hc =>
          rw [List.mem_singleton.mp hu, hc]
          exact ⟨s, rfl⟩
        · exact absurd hu List.not_mem_nil
    · rintro ⟨t, heq⟩
      rcases u with - | ⟨d, u⟩
      · rw [if_pos (List.cons.inj heq).1]
        exact Or.inr (List.mem_singleton_self _)
      · obtain ⟨rfl, hs⟩ := List.cons.inj heq
        exact Or.inl ⟨u, ih.mpr ⟨t, hs⟩, rfl⟩

/-- **The cuts**: the prefixes that are the whole path, or are followed by a separator. -/
theorem mem_cuts {s u : List α} :
    u ∈ cuts sep s ↔ ∃ w, s = u ++ w ∧ (w = [] ∨ ∃ t, w = sep :: t) := by
  rw [cuts, List.mem_cons, mem_before]
  constructor
  · rintro (rfl | ⟨t, rfl⟩)
    · exact ⟨[], (List.append_nil u).symm, Or.inl rfl⟩
    · exact ⟨_, rfl, Or.inr ⟨t, rfl⟩⟩
  · rintro ⟨w, rfl, rfl | ⟨t, rfl⟩⟩
    · exact Or.inl (List.append_nil u).symm
    · exact Or.inr ⟨t, rfl⟩

theorem length_lt_of_mem_before {s u : List α} (h : u ∈ before sep s) : u.length < s.length := by
  obtain ⟨t, rfl⟩ := mem_before.mp h
  rw [List.length_append, List.length_cons]
  omega

theorem before_decreasing (sep : α) (s : List α) :
    (before sep s).Pairwise fun u v => v.length < u.length := by
  induction s with
  | nil => exact List.Pairwise.nil
  | cons c s ih =>
    rw [before, List.pairwise_append]
    refine ⟨List.pairwise_map.mpr (ih.imp fun h => Nat.succ_lt_succ h), ?_, ?_⟩
    · split
      · exact List.pairwise_singleton _ _
      · exact List.Pairwise.nil
    · intro u hu v hv
      obtain ⟨u, -, rfl⟩ := List.mem_map.mp hu
      split at hv
      · rw [List.mem_singleton.mp hv]
        exact Nat.zero_lt_succ _
      · exact absurd hv List.not_mem_nil

theorem cuts_decreasing (sep : α) (s : List α) :
    (cuts sep s).Pairwise fun u v => v.length < u.length :=
  List.pairwise_cons.mpr ⟨fun _ h => length_lt_of_mem_before h, before_decreasing sep s⟩

theorem before_of_not_mem {s : List α} (h : sep ∉ s) : before sep s = [] := by
  refine List.eq_nil_iff_forall_not_mem.mpr fun u hu => ?_
  obtain ⟨t, rfl⟩ := mem_before.mp hu
  exact h (List.mem_append_right _ List.mem_cons_self)

/-- **From the last separator on**: what stands before the separators is the cuts of what stands
before the last one. -/
theorem before_last {s t : List α} (h : sep ∉ t) : before sep (s ++ sep :: t) = cuts sep s := by
  induction s with
  | nil =>
    rw [List.nil_append, before, before_of_not_mem h, if_pos rfl]
    rfl
  | cons c s ih =>
    rw [List.cons_append, before, ih, cuts, List.map_cons, List.cons_append, cuts, before]

/-- Prefixes of the same length are equal: the longest one with a property is found. -/
theorem find?_before_iff {s u : List α} {p : List α → Bool} :
    (before sep s).find? p = some u ↔
      u ∈ before sep s ∧ p u = true ∧ ∀ v ∈ before sep s, p v = true → v.length ≤ u.length := by
  refine ⟨find?_longest (before_decreasing sep s), ?_⟩
  rintro ⟨hu, hpu, hlongest⟩
  obtain ⟨v, hv⟩ := Option.isSome_iff_exists.mp (List.find?_isSome.mpr ⟨u, hu, hpu⟩)
  obtain ⟨hmem, hpv, hmax⟩ := find?_longest (before_decreasing sep s) hv
  obtain ⟨t, ht⟩ := mem_before.mp hu
  obtain ⟨t', ht'⟩ := mem_before.mp hmem
  have hlen : v.length = u.length := Nat.le_antisymm (hlongest v hmem hpv) (hmax u hu hpu)
  obtain ⟨rfl, -⟩ := List.append_inj (ht'.symm.trans ht) hlen
  exact hv

end PrefixSearch
