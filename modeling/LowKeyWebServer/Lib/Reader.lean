import Mathlib.Data.List.Basic

/-!
# Online readers

A *reader* consumes a word letter by letter until it decides: `step s a` either
keeps reading in a new state or stops with a result, in which case the rest of
the word is left unread. `run` is the loop; its outcome is `pending` (the word
ended first) or `decided` with the unread rest.

The rules: `run_append` (reading in two pieces is reading the whole), `pending_rule` (what
every letter that is read keeps holds where a pending run was left),
`run_scan` (a state that loops on a class of letters consumes the longest prefix
in that class) and `decided_scan`, its form for a decided run, which both proofs
of acceptance and proofs of rejection use.
-/

universe u v w

namespace Reader

variable {σ : Type u} {ρ : Type v} {α : Type w}

/-- What one letter does: read on, or stop with a result. -/
inductive Step (σ : Type u) (ρ : Type v) : Type (max u v) where
  /-- keep reading in a new state -/
  | more : σ → Step σ ρ
  /-- stop with a result -/
  | done : ρ → Step σ ρ

/-- What a word does: the state it was left in, or the result and the unread rest. -/
inductive Outcome (σ : Type u) (ρ : Type v) (α : Type w) : Type (max u v w) where
  /-- the word ended before a decision -/
  | pending : σ → Outcome σ ρ α
  /-- decided, with the unread rest -/
  | decided : ρ → List α → Outcome σ ρ α

/-- The reading loop. -/
def run (step : σ → α → Step σ ρ) : σ → List α → Outcome σ ρ α
  | s, [] => .pending s
  | s, a :: w =>
    match step s a with
    | .more s' => run step s' w
    | .done r => .decided r w

variable {step : σ → α → Step σ ρ}

@[simp] theorem run_nil (s : σ) : run step s [] = .pending s := rfl

theorem run_more {s s' : σ} {a : α} (h : step s a = .more s') (w : List α) :
    run step s (a :: w) = run step s' w := by
  rw [run, h]

theorem run_done {s : σ} {r : ρ} {a : α} (h : step s a = .done r) (w : List α) :
    run step s (a :: w) = .decided r w := by
  rw [run, h]

/-- Reading on after an outcome: a pending run continues, a decided one keeps the
new letters unread. -/
def Outcome.feed (step : σ → α → Step σ ρ) : Outcome σ ρ α → List α → Outcome σ ρ α
  | .pending s, w => run step s w
  | .decided r rest, w => .decided r (rest ++ w)

/-- The state that a run was left in, if it did not decide. -/
def Outcome.state : Outcome σ ρ α → Option σ
  | .pending s => some s
  | .decided _ _ => none

theorem Outcome.state_eq_some {o : Outcome σ ρ α} {s : σ} : o.state = some s ↔ o = .pending s := by
  cases o with
  | pending s' => rw [state, Option.some.injEq, pending.injEq]
  | decided r rest => simp [state]

/-- **Reading in two pieces is reading the whole.** -/
theorem run_append (s : σ) (u w : List α) :
    run step s (u ++ w) = (run step s u).feed step w := by
  induction u generalizing s with
  | nil => rfl
  | cons a u ih =>
    rw [List.cons_append]
    rcases h : step s a with s' | r
    · rw [run_more h, run_more h]
      exact ih s'
    · rw [run_done h, run_done h]
      rfl

/-- A decided run has read a non-empty prefix of the word. -/
theorem exists_of_decided {s : σ} {w rest : List α} {r : ρ}
    (h : run step s w = .decided r rest) :
    ∃ u a, w = u ++ a :: rest ∧ ∃ s', run step s u = .pending s' ∧ step s' a = .done r := by
  induction w generalizing s with
  | nil => cases h
  | cons b w ih =>
    rcases hb : step s b with s' | r'
    · rw [run_more hb] at h
      obtain ⟨u, a, rfl, t, hu, ha⟩ := ih h
      exact ⟨b :: u, a, rfl, t, by rw [run_more hb, hu], ha⟩
    · rw [run_done hb] at h
      obtain ⟨rfl, rfl⟩ := Outcome.decided.inj h
      exact ⟨[], b, rfl, s, rfl, hb⟩

/-- Fewer letters are left than there were. -/
theorem length_lt_of_decided {s : σ} {w rest : List α} {r : ρ}
    (h : run step s w = .decided r rest) : rest.length < w.length := by
  obtain ⟨u, a, rfl, -⟩ := exists_of_decided h
  rw [List.length_append, List.length_cons]
  omega

/-- A pending run decides nothing on any prefix. -/
theorem pending_of_append {s : σ} {u w : List α} {t : σ}
    (h : run step s (u ++ w) = .pending t) : ∃ s', run step s u = .pending s' := by
  rw [run_append] at h
  rcases hu : run step s u with s' | ⟨r, rest⟩
  · exact ⟨s', rfl⟩
  · rw [hu] at h
    cases h

/-- **The invariant rule**: what every letter that is read keeps, together with the letters read
so far, holds where a pending run was left. -/
theorem pending_rule {Inv : List α → σ → Prop}
    (hstep : ∀ read s a s', Inv read s → step s a = .more s' → Inv (read ++ [a]) s')
    (read : List α) {s t : σ} (hs : Inv read s) {w : List α} (h : run step s w = .pending t) :
    Inv (read ++ w) t := by
  induction w generalizing read s with
  | nil =>
    obtain rfl := Outcome.pending.inj h
    rwa [List.append_nil]
  | cons a w ih =>
    rcases ha : step s a with s' | r
    · rw [run_more ha] at h
      rw [List.append_cons]
      exact ih (read ++ [a]) (hstep read s a s' hs ha) h
    · rw [run_done ha] at h
      cases h

/-! ## Scanning a class of letters

`f acc` is the state that has accumulated `acc`; letters of the class `p` keep it
there. -/

section Scan

variable {f : List α → σ} {p : α → Prop}

/-- Letters of the class are accumulated. -/
theorem run_scan (hp : ∀ acc a, p a → step (f acc) a = .more (f (acc ++ [a])))
    (acc : List α) {m : List α} (hm : ∀ a ∈ m, p a) (w : List α) :
    run step (f acc) (m ++ w) = run step (f (acc ++ m)) w := by
  induction m generalizing acc with
  | nil => rw [List.nil_append, List.append_nil]
  | cons a m ih =>
    rw [List.forall_mem_cons] at hm
    rw [List.cons_append, run_more (hp acc a hm.1), ih (acc ++ [a]) hm.2,
      List.append_assoc, List.singleton_append]

/-- **A decided run leaves the scanning state** on the first letter outside the class. -/
theorem decided_scan (hp : ∀ acc a, p a → step (f acc) a = .more (f (acc ++ [a])))
    (acc : List α) {w rest : List α} {r : ρ} :
    run step (f acc) w = .decided r rest ↔
      ∃ m a t, w = m ++ a :: t ∧ (∀ b ∈ m, p b) ∧ ¬ p a ∧
        run step (f (acc ++ m)) (a :: t) = .decided r rest := by
  constructor
  · intro h
    induction w generalizing acc with
    | nil => cases h
    | cons b w ih =>
      by_cases hb : p b
      · rw [run_more (hp acc b hb)] at h
        obtain ⟨m, a, t, rfl, hm, ha, hrun⟩ := ih (acc ++ [b]) h
        refine ⟨b :: m, a, t, rfl, List.forall_mem_cons.mpr ⟨hb, hm⟩, ha, ?_⟩
        rw [List.append_assoc, List.singleton_append] at hrun
        exact hrun
      · exact ⟨[], b, w, rfl, fun _ hm => absurd hm List.not_mem_nil, hb,
          by rw [List.append_nil]; exact h⟩
  · rintro ⟨m, a, t, rfl, hm, -, hrun⟩
    rw [run_scan hp acc hm]
    exact hrun

end Scan

end Reader
