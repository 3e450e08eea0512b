import Mathlib.Logic.Relation

/-!
# Programs with loops

A program over a store `σ` runs on fuel: `run n s` is the store it ends in, `none` when `n` is
too little. `Ends s t` says that some fuel gets it from `s` to `t`; a program that ends in no
store runs forever. Fuel is only a means: more of it changes no result (`run_succ`), and each
statement has one rule for where it ends.

`Follows view p R` is data refinement: seen through `view`, the program `p` does what the
relation `R` says, and ends exactly where `R` leads somewhere. Its rules follow the statements.
-/

universe u v

/-- A program, by its runs on fuel. -/
structure Program (σ : Type u) : Type u where
  /-- the store after at most that many rounds of each loop -/
  run : Nat → σ → Option σ
  /-- more fuel changes no result -/
  run_succ : ∀ {n : Nat} {s t : σ}, run n s = some t → run (n + 1) s = some t

namespace Program

variable {σ : Type u} {τ : Type v}

/-! ## Statements -/

/-- Does nothing. -/
def skip : Program σ := ⟨fun _ s => some s, id⟩

/-- Changes the store. -/
def assign (f : σ → σ) : Program σ := ⟨fun _ s => some (f s), id⟩

/-- `p; q` -/
def seq (p q : Program σ) : Program σ where
  run n s := (p.run n s).bind (q.run n)
  run_succ h := by
    obtain ⟨m, hp, hq⟩ := Option.bind_eq_some_iff.mp h
    exact Option.bind_eq_some_iff.mpr ⟨m, p.run_succ hp, q.run_succ hq⟩

/-- `if (c) p else q` -/
def ite (c : σ → Bool) (p q : Program σ) : Program σ where
  run n s := if c s then p.run n s else q.run n s
  run_succ {n s t} h := by
    split at h
    · next hc => rw [if_pos hc]; exact p.run_succ h
    · next hc => rw [if_neg hc]; exact q.run_succ h

/-- The rounds of a loop. -/
def loopRun (c : σ → Bool) (p : Program σ) : Nat → σ → Option σ
  | 0, _ => none
  | n + 1, s => if c s then (p.run n s).bind (loopRun c p n) else some s

theorem loopRun_succ {c : σ → Bool} {p : Program σ} {n : Nat} {s t : σ}
    (h : loopRun c p n s = some t) : loopRun c p (n + 1) s = some t := by
  induction n generalizing s with
  | zero => cases h
  | succ n ih =>
    rw [loopRun] at h ⊢
    split at h
    · next hc =>
      obtain ⟨m, hp, hloop⟩ := Option.bind_eq_some_iff.mp h
      rw [if_pos hc]
      exact Option.bind_eq_some_iff.mpr ⟨m, p.run_succ hp, ih hloop⟩
    · next hc => rw [if_neg hc]; exact h

/-- `while (c) p` -/
def loop (c : σ → Bool) (p : Program σ) : Program σ := ⟨loopRun c p, loopRun_succ⟩

theorem run_loop (c : σ → Bool) (p : Program σ) (n : Nat) (s : σ) :
    (loop c p).run (n + 1) s =
      if c s then (p.run n s).bind ((loop c p).run n) else some s := rfl

/-! ## Where a program ends -/

/-- The program ends in `t`. -/
def Ends (p : Program σ) (s t : σ) : Prop := ∃ n, p.run n s = some t

theorem run_le (p : Program σ) {n m : Nat} (hnm : n ≤ m) {s t : σ} (h : p.run n s = some t) :
    p.run m s = some t := by
  induction hnm with
  | refl => exact h
  | step _ ih => exact p.run_succ ih

@[simp] theorem ends_skip {s t : σ} : skip.Ends s t ↔ t = s :=
  ⟨fun ⟨_, h⟩ => (Option.some.inj h).symm, fun h => ⟨0, congrArg some h.symm⟩⟩

@[simp] theorem ends_assign {f : σ → σ} {s t : σ} : (assign f).Ends s t ↔ t = f s :=
  ⟨fun ⟨_, h⟩ => (Option.some.inj h).symm, fun h => ⟨0, congrArg some h.symm⟩⟩

theorem ends_seq {p q : Program σ} {s t : σ} :
    (seq p q).Ends s t ↔ ∃ m, p.Ends s m ∧ q.Ends m t := by
  constructor
  · rintro ⟨n, h⟩
    obtain ⟨m, hp, hq⟩ := Option.bind_eq_some_iff.mp h
    exact ⟨m, ⟨n, hp⟩, n, hq⟩
  · rintro ⟨m, ⟨n, hp⟩, n', hq⟩
    refine ⟨max n n', Option.bind_eq_some_iff.mpr ⟨m, ?_, ?_⟩⟩
    · exact p.run_le (Nat.le_max_left ..) hp
    · exact q.run_le (Nat.le_max_right ..) hq

theorem ends_ite {c : σ → Bool} {p q : Program σ} {s t : σ} :
    (ite c p q).Ends s t ↔ if c s then p.Ends s t else q.Ends s t := by
  by_cases hc : c s = true
  · simp [Ends, ite, hc]
  · simp [Ends, ite, hc]

theorem ends_loop {c : σ → Bool} {p : Program σ} {s t : σ} :
    (loop c p).Ends s t ↔ if c s then ∃ m, p.Ends s m ∧ (loop c p).Ends m t else t = s := by
  constructor
  · rintro ⟨n | n, h⟩
    · cases h
    rw [run_loop] at h
    split at h
    · next hc =>
      obtain ⟨m, hp, hloop⟩ := Option.bind_eq_some_iff.mp h
      rw [if_pos hc]
      exact ⟨m, ⟨n, hp⟩, n, hloop⟩
    · next hc =>
      rw [if_neg hc]
      exact (Option.some.inj h).symm
  · intro h
    split at h
    · next hc =>
      obtain ⟨m, ⟨n, hp⟩, n', hloop⟩ := h
      refine ⟨max n n' + 1, ?_⟩
      rw [run_loop, if_pos hc]
      refine Option.bind_eq_some_iff.mpr ⟨m, p.run_le (Nat.le_max_left ..) hp, ?_⟩
      exact (loop c p).run_le (Nat.le_max_right ..) hloop
    · next hc =>
      refine ⟨1, ?_⟩
      rw [run_loop, if_neg hc, h]

/-- **The loop rule**: a loop that ends does so after finitely many rounds. -/
theorem Ends.loop_induction {c : σ → Bool} {p : Program σ} {P : σ → σ → Prop}
    (done : ∀ s, c s = false → P s s)
    (next : ∀ s m t, c s = true → p.Ends s m → P m t → P s t) {s t : σ}
    (h : (loop c p).Ends s t) : P s t := by
  obtain ⟨n, h⟩ := h
  induction n generalizing s with
  | zero => cases h
  | succ n ih =>
    rw [run_loop] at h
    split at h
    · next hc =>
      obtain ⟨m, hp, hloop⟩ := Option.bind_eq_some_iff.mp h
      exact next s m t hc ⟨n, hp⟩ (ih hloop)
    · next hc =>
      obtain rfl := Option.some.inj h
      exact done s (Bool.eq_false_iff.mpr hc)

/-! ## Data refinement -/

/-- The big steps of a loop whose rounds are a relation. -/
inductive While (C : τ → Prop) (R : τ → τ → Prop) : τ → τ → Prop
  /-- the condition fails -/
  | done {a : τ} : ¬ C a → While C R a a
  /-- a round, and the loop again -/
  | next {a m b : τ} : C a → R a m → While C R m b → While C R a b

/-- Seen through `view`, the program does what the relation says. -/
def Follows (view : σ → τ) (p : Program σ) (R : τ → τ → Prop) : Prop :=
  ∀ s b, R (view s) b ↔ ∃ t, p.Ends s t ∧ view t = b

section Follows

variable {view : σ → τ} {p q : Program σ} {R S : τ → τ → Prop}

/-- It ends where the relation leads somewhere. -/
theorem Follows.ends_iff (h : Follows view p R) {s : σ} :
    (∃ t, p.Ends s t) ↔ ∃ b, R (view s) b :=
  ⟨fun ⟨t, ht⟩ => ⟨view t, (h s _).mpr ⟨t, ht, rfl⟩⟩,
    fun ⟨b, hb⟩ => ((h s b).mp hb).imp fun _ ht => ht.1⟩

theorem Follows.congr (h : Follows view p R) (hRS : ∀ a b, R a b ↔ S a b) : Follows view p S :=
  fun s b => (hRS _ b).symm.trans (h s b)

theorem follows_skip : Follows view skip fun a b => b = a := fun s b =>
  ⟨fun h => ⟨s, ends_skip.mpr rfl, h.symm⟩, fun ⟨t, ht, hb⟩ => by rw [← hb, ends_skip.mp ht]⟩

theorem follows_assign {f : σ → σ} {g : τ → τ} (h : ∀ s, view (f s) = g (view s)) :
    Follows view (assign f) fun a b => b = g a := fun s b =>
  ⟨fun hb => ⟨f s, ends_assign.mpr rfl, (h s).trans hb.symm⟩,
    fun ⟨t, ht, hb⟩ => by rw [← hb, ends_assign.mp ht, h]⟩

theorem Follows.seq (hp : Follows view p R) (hq : Follows view q S) :
    Follows view (seq p q) (Relation.Comp R S) := by
  intro s b
  constructor
  · rintro ⟨a, hR, hS⟩
    obtain ⟨m, hm, rfl⟩ := (hp s a).mp hR
    obtain ⟨t, ht, hb⟩ := (hq m b).mp hS
    exact ⟨t, ends_seq.mpr ⟨m, hm, ht⟩, hb⟩
  · rintro ⟨t, ht, hb⟩
    obtain ⟨m, hm, ht⟩ := ends_seq.mp ht
    exact ⟨view m, (hp s _).mpr ⟨m, hm, rfl⟩, (hq m b).mpr ⟨t, ht, hb⟩⟩

theorem Follows.ite {c : σ → Bool} {C : τ → Prop} (hc : ∀ s, c s = true ↔ C (view s))
    (hp : Follows view p R) (hq : Follows view q S) :
    Follows view (ite c p q) fun a b => C a ∧ R a b ∨ ¬ C a ∧ S a b := by
  intro s b
  by_cases h : C (view s)
  · simp only [ends_ite, (hc s).mpr h, if_true, h, true_and, not_true_eq_false, false_and, or_false]
    exact hp s b
  · have hcs : c s = false := Bool.eq_false_iff.mpr fun hcs => h ((hc s).mp hcs)
    simp only [ends_ite, hcs, Bool.false_eq_true, if_false, h, not_false_eq_true, true_and,
      false_and, false_or]
    exact hq s b

theorem Follows.loop {c : σ → Bool} {C : τ → Prop} (hc : ∀ s, c s = true ↔ C (view s))
    (hp : Follows view p R) : Follows view (loop c p) (While C R) := by
  intro s b
  constructor
  · intro h
    generalize ha : view s = a at h
    induction h generalizing s with
    | done hC =>
      have hcs : ¬ c s = true := fun hcs => hC (ha ▸ (hc s).mp hcs)
      exact ⟨s, ends_loop.mpr (by rw [if_neg hcs]), ha⟩
    | next hC hR _ ih =>
      have hcs : c s = true := (hc s).mpr (ha.symm ▸ hC)
      obtain ⟨m, hm, hview⟩ := (hp s _).mp (ha.symm ▸ hR)
      obtain ⟨t, ht, hb⟩ := ih m hview
      exact ⟨t, ends_loop.mpr (by rw [if_pos hcs]; exact ⟨m, hm, ht⟩), hb⟩
  · rintro ⟨t, ht, rfl⟩
    refine Ends.loop_induction (P := fun s t => While C R (view s) (view t)) ?_ ?_ ht
    · intro s hcs
      exact .done fun hC => Bool.eq_false_iff.mp hcs ((hc s).mpr hC)
    · intro s m t hcs hm ih
      exact .next ((hc s).mp hcs) ((hp s _).mpr ⟨m, hm, rfl⟩) ih

end Follows

end Program
