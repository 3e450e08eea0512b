import Mathlib.Data.List.Nodup
import Mathlib.Data.List.Perm.Basic

/-!
# Cells in the custody of tickets

Cells are allocated one after the other, and freed: `none` is a freed cell. What may still be
done with a cell is a *ticket* on it. `Accounted` is the discipline under which no ticket is
ever used on a freed cell, and no cell is lost: every ticket is on a live cell, and every live
cell has exactly one.

The rules: `Accounted.alloc`, `Accounted.exchange` (a ticket is used up, and its cell gets
another one) and `Accounted.free` keep it, and `holder` is the ticket of a cell, with one
equation for each of the three.
-/

universe u v

namespace Custody

variable {α : Type u} {τ : Type v} {owner : τ → Nat}

/-- Every ticket is on a live cell, and every live cell has exactly one ticket. -/
structure Accounted (owner : τ → Nat) (cells : List (Option α)) (tickets : List τ) : Prop where
  /-- no cell has two tickets -/
  nodup : (tickets.map owner).Nodup
  /-- the cells with a ticket are the live ones -/
  live_iff : ∀ i, (∃ t ∈ tickets, owner t = i) ↔ ∃ a, cells[i]? = some (some a)

/-- The ticket of a cell. -/
def holder (owner : τ → Nat) (tickets : List τ) (i : Nat) : Option τ :=
  tickets.find? fun t => owner t == i

/-! ## Tickets of different cells -/

section Tickets

variable {tickets : List τ} {t t' : τ} {i : Nat}

theorem eq_of_owner_eq (h : (tickets.map owner).Nodup) (ht : t ∈ tickets) (ht' : t' ∈ tickets)
    (heq : owner t = owner t') : t = t' :=
  List.inj_on_of_nodup_map h ht ht' heq

theorem holder_eq_some (h : (tickets.map owner).Nodup) :
    holder owner tickets i = some t ↔ t ∈ tickets ∧ owner t = i := by
  constructor
  · intro hfind
    exact ⟨List.mem_of_find?_eq_some hfind, by simpa using List.find?_some hfind⟩
  · rintro ⟨ht, rfl⟩
    obtain ⟨t', hfind⟩ : ∃ t', holder owner tickets (owner t) = some t' :=
      Option.isSome_iff_exists.mp (List.find?_isSome.mpr ⟨t, ht, by simp⟩)
    have heq : owner t' = owner t := by simpa using List.find?_some hfind
    rw [hfind, eq_of_owner_eq h (List.mem_of_find?_eq_some hfind) ht heq]

theorem holder_cons_self : holder owner (t :: tickets) (owner t) = some t := by
  rw [holder, List.find?_cons_of_pos (by simp)]

theorem holder_cons_ne (h : owner t ≠ i) : holder owner (t :: tickets) i = holder owner tickets i := by
  rw [holder, List.find?_cons_of_neg (by simpa using h), holder]

variable [DecidableEq τ]

/-- The other tickets are on other cells. -/
theorem owner_ne_of_mem_erase (h : (tickets.map owner).Nodup) (ht : t ∈ tickets)
    (ht' : t' ∈ tickets.erase t) : owner t' ≠ owner t := by
  intro heq
  obtain rfl := eq_of_owner_eq h (List.mem_of_mem_erase ht') ht heq
  exact (List.Nodup.not_mem_erase (List.Nodup.of_map owner h)) ht'

theorem nodup_erase (h : (tickets.map owner).Nodup) (t : τ) : ((tickets.erase t).map owner).Nodup :=
  h.sublist (List.Sublist.map owner List.erase_sublist)

theorem holder_erase_self (h : (tickets.map owner).Nodup) (ht : t ∈ tickets) :
    holder owner (tickets.erase t) (owner t) = none := by
  rw [holder, List.find?_eq_none]
  intro t' ht'
  simpa using owner_ne_of_mem_erase h ht ht'

theorem holder_erase_ne (h : (tickets.map owner).Nodup) (hi : owner t ≠ i) :
    holder owner (tickets.erase t) i = holder owner tickets i := by
  refine Option.ext fun t' => ?_
  rw [holder_eq_some (nodup_erase h t), holder_eq_some h]
  refine and_congr_left fun heq => List.mem_erase_of_ne ?_
  rintro rfl
  exact hi heq

end Tickets

/-! ## The discipline -/

theorem accounted_nil : Accounted owner ([] : List (Option α)) [] :=
  ⟨List.nodup_nil, fun i => by simp⟩

namespace Accounted

variable {cells : List (Option α)} {tickets : List τ} {t t' : τ}

/-- A ticket is on a live cell. -/
theorem live (h : Accounted owner cells tickets) (ht : t ∈ tickets) :
    ∃ a, cells[owner t]? = some (some a) :=
  (h.live_iff (owner t)).mp ⟨t, ht, rfl⟩

theorem lt_length (h : Accounted owner cells tickets) (ht : t ∈ tickets) :
    owner t < cells.length := by
  obtain ⟨a, ha⟩ := h.live ht
  exact (List.getElem?_eq_some_iff.mp ha).1

/-- A cell that has not been allocated has none. -/
theorem holder_length (h : Accounted owner cells tickets) {i : Nat} (hi : cells.length ≤ i) :
    holder owner tickets i = none := by
  rw [holder, List.find?_eq_none]
  intro t ht heq
  rw [beq_iff_eq] at heq
  exact absurd (heq ▸ h.lt_length ht) (Nat.not_lt.mpr hi)

/-- **A new cell**, with its ticket. -/
theorem alloc (h : Accounted owner cells tickets) (a : α) (ht : owner t = cells.length) :
    Accounted owner (cells ++ [some a]) (t :: tickets) := by
  constructor
  · rw [List.map_cons, List.nodup_cons, ht]
    refine ⟨fun hmem => ?_, h.nodup⟩
    obtain ⟨t', ht', heq⟩ := List.mem_map.mp hmem
    exact absurd (heq ▸ h.lt_length ht') (Nat.lt_irrefl _)
  · intro i
    rw [List.exists_mem_cons_iff, ht, h.live_iff, List.getElem?_append]
    split
    · next hlt => exact ⟨fun h => h.resolve_left (Nat.ne_of_gt hlt), Or.inr⟩
    · next hge =>
      constructor
      · rintro (rfl | ⟨b, hb⟩)
        · exact ⟨a, by simp⟩
        · exact absurd (List.getElem?_eq_some_iff.mp hb).1 hge
      · rintro ⟨b, hb⟩
        have hlt := (List.getElem?_eq_some_iff.mp hb).1
        rw [List.length_singleton] at hlt
        exact Or.inl (by omega)

variable [DecidableEq τ]

/-- The cells with a ticket, one of them apart. -/
theorem exists_mem_erase (h : Accounted owner cells tickets) (ht : t ∈ tickets) (i : Nat) :
    (∃ t' ∈ tickets.erase t, owner t' = i) ↔ i ≠ owner t ∧ ∃ a, cells[i]? = some (some a) := by
  rw [← h.live_iff]
  constructor
  · rintro ⟨t', ht', rfl⟩
    exact ⟨owner_ne_of_mem_erase h.nodup ht ht', t', List.mem_of_mem_erase ht', rfl⟩
  · rintro ⟨hi, t', ht', rfl⟩
    exact ⟨t', (List.mem_erase_of_ne fun heq => hi (congrArg owner heq)).mpr ht', rfl⟩

/-- **A ticket is used up**, and its cell gets another one. -/
theorem exchange (h : Accounted owner cells tickets) (ht : t ∈ tickets) (a : α)
    (howner : owner t' = owner t) :
    Accounted owner (cells.set (owner t) (some a)) (t' :: tickets.erase t) := by
  constructor
  · rw [List.map_cons, List.nodup_cons, howner]
    refine ⟨fun hmem => ?_, nodup_erase h.nodup t⟩
    obtain ⟨t'', ht'', heq⟩ := List.mem_map.mp hmem
    exact owner_ne_of_mem_erase h.nodup ht ht'' heq
  · intro i
    rw [List.exists_mem_cons_iff, howner, h.exists_mem_erase ht]
    by_cases hi : owner t = i
    · subst hi
      simp [List.getElem?_set_self (h.lt_length ht)]
    · rw [List.getElem?_set_ne hi]
      exact ⟨fun hor => (hor.resolve_left hi).2, fun ha => Or.inr ⟨fun heq => hi heq.symm, ha⟩⟩

/-- **A cell is freed**, with its ticket. -/
theorem free (h : Accounted owner cells tickets) (ht : t ∈ tickets) :
    Accounted owner (cells.set (owner t) none) (tickets.erase t) := by
  refine ⟨nodup_erase h.nodup t, fun i => ?_⟩
  rw [h.exists_mem_erase ht]
  by_cases hi : owner t = i
  · subst hi
    simp [List.getElem?_set_self (h.lt_length ht)]
  · rw [List.getElem?_set_ne hi]
    exact and_iff_right fun heq => hi heq.symm

end Accounted

end Custody
