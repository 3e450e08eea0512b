import Mathlib.Data.List.Basic

/-!
# Lexical paths

A directory is the list of names that lead to it from the root. A path is a list of moves;
`walk` follows it from a directory, without looking at any file system. A relative path has a
normal form (`normalize`): some steps up, then names down.

The rules: `walk_append` (a path is followed in pieces), `walk_eq_apply` (it is followed as its
normal form is) and `below_apply_iff` (when a relative path ends below the directory where it
starts: when the names that it leaves are entered again).
-/

universe u

namespace LexicalPath

variable {α : Type u}

/-- One segment of a path. -/
inductive Move (α : Type u) : Type u where
  /-- an empty segment, or `.` -/
  | stay
  /-- `..` -/
  | up
  /-- a name -/
  | down (a : α)

/-- The directory at the end of a path; above the root is the root. -/
def walk : List α → List (Move α) → List α
  | dir, [] => dir
  | dir, .stay :: ms => walk dir ms
  | dir, .up :: ms => walk dir.dropLast ms
  | dir, .down a :: ms => walk (dir ++ [a]) ms

/-- A path is followed in pieces. -/
theorem walk_append (dir : List α) (ms ms' : List (Move α)) :
    walk dir (ms ++ ms') = walk (walk dir ms) ms' := by
  induction ms generalizing dir with
  | nil => rfl
  | cons m ms ih => cases m <;> exact ih _

/-! ## Normal forms -/

/-- Steps up, then names down. -/
structure Relative (α : Type u) : Type u where
  /-- the number of steps up -/
  ups : Nat
  /-- the names down -/
  downs : List α

/-- Where it leads from a directory. -/
def Relative.apply (dir : List α) (r : Relative α) : List α :=
  dir.take (dir.length - r.ups) ++ r.downs

/-- One more segment. -/
def Relative.move (r : Relative α) : Move α → Relative α
  | .stay => r
  | .up =>
    match r.downs with
    | [] => ⟨r.ups + 1, []⟩
    | a :: downs => ⟨r.ups, (a :: downs).dropLast⟩
  | .down a => ⟨r.ups, r.downs ++ [a]⟩

/-- The normal form of a path. -/
def normalize (ms : List (Move α)) : Relative α := ms.foldl Relative.move ⟨0, []⟩

/-- One more segment is one more step. -/
theorem apply_move (dir : List α) (r : Relative α) (m : Move α) :
    (r.move m).apply dir = walk (r.apply dir) [m] := by
  cases m with
  | stay => rfl
  | down a => exact (List.append_assoc _ _ _).symm
  | up =>
    obtain ⟨ups, downs⟩ := r
    rcases downs with - | ⟨a, downs⟩
    · have htake : dir.take (dir.length - (ups + 1)) = (dir.take (dir.length - ups)).dropLast := by
        rw [List.dropLast_eq_take, List.take_take, List.length_take]
        congr 1
        omega
      simpa [Relative.apply, Relative.move, walk] using htake
    · exact (List.dropLast_append_of_ne_nil (List.cons_ne_nil _ _)).symm

/-- **A path is followed as its normal form is.** -/
theorem walk_eq_apply (dir : List α) (ms : List (Move α)) :
    walk dir ms = (normalize ms).apply dir := by
  have hfold : ∀ (ms : List (Move α)) (r : Relative α),
      walk (r.apply dir) ms = (ms.foldl Relative.move r).apply dir := by
    intro ms
    induction ms with
    | nil => exact fun _ => rfl
    | cons m ms ih =>
      intro r
      rw [← List.singleton_append, walk_append, ← apply_move]
      exact ih _
  have hstart : Relative.apply dir ⟨0, []⟩ = dir := by simp [Relative.apply]
  rw [normalize, ← hfold, hstart]

/-! ## Containment -/

/-- `x` lies in the directory `dir`, or deeper. -/
def Below (dir x : List α) : Prop := ∃ a l, x = dir ++ a :: l

/-- **A relative path ends below its directory** exactly when the names that its steps up
leave are entered again, and one more. -/
theorem below_apply_iff (dir : List α) (r : Relative α) :
    Below dir (r.apply dir) ↔ Below (dir.drop (dir.length - r.ups)) r.downs := by
  have hsplit : ∀ l : List α, dir ++ l =
      dir.take (dir.length - r.ups) ++ (dir.drop (dir.length - r.ups) ++ l) := by
    intro l
    rw [← List.append_assoc, List.take_append_drop]
  constructor
  · rintro ⟨a, l, h⟩
    rw [hsplit] at h
    exact ⟨a, l, List.append_cancel_left h⟩
  · rintro ⟨a, l, h⟩
    refine ⟨a, l, ?_⟩
    rw [hsplit, ← h]
    rfl

/-! ## Segments -/

section Segments

variable [DecidableEq α]

/-- The segments of a text, between its separators. -/
def segments (sep : α) : List α → List (List α)
  | [] => [[]]
  | c :: s =>
    if c = sep then [] :: segments sep s
    else
      match segments sep s with
      | [] => [[c]]
      | w :: ws => (c :: w) :: ws

theorem segments_ne_nil (sep : α) (s : List α) : segments sep s ≠ [] := by
  rcases s with - | ⟨c, s⟩
  · exact List.cons_ne_nil _ _
  · rw [segments]
    repeat' split
    all_goals exact List.cons_ne_nil _ _

/-- A separator ends a segment. -/
theorem segments_append (sep : α) (s t : List α) :
    segments sep (s ++ sep :: t) = segments sep s ++ segments sep t := by
  induction s with
  | nil => simp [segments]
  | cons c s ih =>
    rw [List.cons_append, segments, segments, ih]
    by_cases hc : c = sep
    · rw [if_pos hc, if_pos hc, List.cons_append]
    · rw [if_neg hc, if_neg hc]
      rcases hs : segments sep s with - | ⟨w, ws⟩
      · exact absurd hs (segments_ne_nil sep s)
      · rfl

end Segments

end LexicalPath
