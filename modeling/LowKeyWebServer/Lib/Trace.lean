import Mathlib.Data.List.Basic

/-!
# Runs of a partial machine

A machine takes one event at a time: `step s a` is its next state, or `none` when the
run ends there (an error, an exception, undefined behaviour). `trace` lists the states
of a run, each with the event that happens in it.

The rules: `forall_trace_cons` (a property of a whole run, one step at a time),
`forall_trace` (an invariant that every allowed step keeps holds all along the run),
`forall_trace_measure` (a measure that every step keeps has its first value all along the run),
`simulates` (where every step is followed by another machine, so is a run that ends) and
`simulates_filter` (the same, where another machine only follows some of the events).
-/

universe u v w x

namespace Machine

variable {σ : Type u} {α : Type v} {step : σ → α → Option σ}

/-- The states of the run, each with its event. -/
def trace (step : σ → α → Option σ) : σ → List α → List (σ × α)
  | _, [] => []
  | s, a :: as =>
    (s, a) :: match step s a with
      | some s' => trace step s' as
      | none => []

@[simp] theorem trace_nil (s : σ) : trace step s [] = [] := rfl

theorem trace_some {s s' : σ} {a : α} (h : step s a = some s') (as : List α) :
    trace step s (a :: as) = (s, a) :: trace step s' as := by
  rw [trace, h]

theorem trace_none {s : σ} {a : α} (h : step s a = none) (as : List α) :
    trace step s (a :: as) = [(s, a)] := by
  rw [trace, h]

/-- A run in two pieces. -/
theorem trace_append {s s' : σ} {as : List α} (h : as.foldlM step s = some s') (bs : List α) :
    trace step s (as ++ bs) = trace step s as ++ trace step s' bs := by
  induction as generalizing s with
  | nil =>
    obtain rfl := Option.some.inj h
    rfl
  | cons a as ih =>
    rw [List.foldlM_cons] at h
    obtain ⟨s₁, hstep, h⟩ := Option.bind_eq_some_iff.mp h
    rw [List.cons_append, trace_some hstep, trace_some hstep, ih h, List.cons_append]

/-- **A property of a run, one step at a time.** -/
theorem forall_trace_cons {P : σ × α → Prop} {s : σ} {a : α} {as : List α} :
    (∀ e ∈ trace step s (a :: as), P e) ↔
      P (s, a) ∧ ∀ s', step s a = some s' → ∀ e ∈ trace step s' as, P e := by
  rcases h : step s a with - | s'
  · rw [trace_none h, List.forall_mem_singleton]
    simp
  · rw [trace_some h, List.forall_mem_cons]
    simp

/-- **The invariant rule**: what every step of an allowed event keeps holds in every
state of a run of allowed events. What is allowed may depend on the state. -/
theorem forall_trace {Inv : σ → Prop} (ok : σ × α → Prop)
    (hstep : ∀ s a s', Inv s → ok (s, a) → step s a = some s' → Inv s')
    {s : σ} (hs : Inv s) {as : List α} (has : ∀ e ∈ trace step s as, ok e) :
    ∀ e ∈ trace step s as, Inv e.1 := by
  induction as generalizing s with
  | nil => exact fun _ h => absurd h List.not_mem_nil
  | cons a as ih =>
    rw [forall_trace_cons] at has ⊢
    exact ⟨hs, fun s' h => ih (hstep s a s' hs has.1 h) (has.2 s' h)⟩

/-- **The measure rule**: a measure has its first value after every step of a run exactly when
every step of the run keeps it. -/
theorem forall_trace_measure {β : Type w} (f : σ → β) (s : σ) (as : List α) :
    (∀ e ∈ trace step s as, ∀ s', step e.1 e.2 = some s' → f s' = f s) ↔
      ∀ e ∈ trace step s as, ∀ s', step e.1 e.2 = some s' → f s' = f e.1 := by
  induction as generalizing s with
  | nil => simp
  | cons a as ih =>
    rw [forall_trace_cons, forall_trace_cons]
    refine and_congr_right fun hfirst => forall_congr' fun s' => forall_congr' fun hstep => ?_
    rw [← ih s', hfirst s' hstep]

/-- **The invariant rule for the end of a run** of allowed events. -/
theorem invariant_end {Inv : σ → Prop} (ok : σ × α → Prop)
    (hstep : ∀ s a s', Inv s → ok (s, a) → step s a = some s' → Inv s')
    {s s' : σ} (hs : Inv s) {as : List α} (has : ∀ e ∈ trace step s as, ok e)
    (hrun : as.foldlM step s = some s') : Inv s' := by
  induction as generalizing s with
  | nil =>
    obtain rfl := Option.some.inj hrun
    exact hs
  | cons a as ih =>
    rw [List.foldlM_cons] at hrun
    obtain ⟨s₁, h, hrun⟩ := Option.bind_eq_some_iff.mp hrun
    rw [forall_trace_cons] at has
    exact ih (hstep s a s₁ hs has.1 h) (has.2 s₁ h) hrun

/-- **The simulation rule**: another machine follows every allowed step on inputs of its own, so it
follows the run on all the inputs in turn. -/
theorem simulates {τ : Type w} {ι : Type x} {step' : τ → ι → Option τ} {inputs : α → List ι}
    {R : σ → τ → Prop} (ok : σ × α → Prop)
    (hstep : ∀ s a s' t, R s t → ok (s, a) → step s a = some s' →
      ∃ t', (inputs a).foldlM step' t = some t' ∧ R s' t')
    {s s' : σ} {t : τ} (hR : R s t) {as : List α} (has : ∀ e ∈ trace step s as, ok e)
    (hrun : as.foldlM step s = some s') :
    ∃ t', (as.flatMap inputs).foldlM step' t = some t' ∧ R s' t' := by
  induction as generalizing s t with
  | nil =>
    obtain rfl := Option.some.inj hrun
    exact ⟨t, rfl, hR⟩
  | cons a as ih =>
    rw [List.foldlM_cons] at hrun
    obtain ⟨s₁, h, hrun⟩ := Option.bind_eq_some_iff.mp hrun
    rw [forall_trace_cons] at has
    obtain ⟨t₁, ht₁, hR₁⟩ := hstep s a s₁ t hR has.1 h
    obtain ⟨t', ht', hR'⟩ := ih hR₁ (has.2 s₁ h) hrun
    refine ⟨t', ?_, hR'⟩
    rw [List.flatMap_cons, List.foldlM_append, ht₁]
    exact ht'

/-- **The selection rule**: another machine follows the steps of the events that are kept, and the
other ones do not concern it, so it follows the run on the events that are kept. -/
theorem simulates_filter {τ : Type w} {step' : τ → α → Option τ} {R : σ → τ → Prop} (keep : α → Bool)
    (hkeep : ∀ s a s' t, R s t → keep a = true → step s a = some s' →
      ∃ t', step' t a = some t' ∧ R s' t')
    (hskip : ∀ s a s' t, R s t → keep a = false → step s a = some s' → R s' t)
    {s s' : σ} {t : τ} (hR : R s t) {as : List α} (hrun : as.foldlM step s = some s') :
    ∃ t', (as.filter keep).foldlM step' t = some t' ∧ R s' t' := by
  induction as generalizing s t with
  | nil =>
    obtain rfl := Option.some.inj hrun
    exact ⟨t, rfl, hR⟩
  | cons a as ih =>
    rw [List.foldlM_cons] at hrun
    obtain ⟨s₁, h, hrun⟩ := Option.bind_eq_some_iff.mp hrun
    rcases ha : keep a with - | -
    · rw [List.filter_cons_of_neg (by rw [ha]; exact Bool.false_ne_true)]
      exact ih (hskip s a s₁ t hR ha h) hrun
    · obtain ⟨t₁, ht₁, hR₁⟩ := hkeep s a s₁ t hR ha h
      obtain ⟨t', ht', hR'⟩ := ih hR₁ hrun
      refine ⟨t', ?_, hR'⟩
      rw [List.filter_cons_of_pos ha, List.foldlM_cons, ht₁]
      exact ht'

end Machine
