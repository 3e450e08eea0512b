import Mathlib.Algebra.Group.Int.Defs
import Mathlib.Algebra.Group.Nat.Defs
import Mathlib.Data.List.Basic
import LowKeyWebServer.Lib.PrefixSearch

/-!
# Bytes and byte strings

A C++ `char` is a `Byte`, a `std::string` a list of bytes. A `char` that the source
hands to an `int` parameter is sign-extended (`toInt`), so the bytes from 0x80 on
are negative there. `std::string::npos` is `none`; where the source keeps a position in an `int`,
`findInt` and `findLastOfInt` do so too.
-/

namespace LowKeyWebServer

/-- A C++ `char`. -/
abbrev Byte : Type := UInt8

/-- A C++ `std::string`. -/
abbrev Bytes : Type := List Byte

/-- An ASCII character literal as a byte. -/
instance : Coe Char Byte := ⟨Char.toUInt8⟩

/-- A string literal as a byte string. -/
def str (s : String) : Bytes := s.toList.map Char.toUInt8

/-- The line terminator `"\r\n"`. -/
def crlf : Bytes := ['\r', '\n']

/-- The implicit conversion of a (signed) `char` to `int`. -/
def toInt (c : Byte) : Int := c.toInt8.toInt

/-- A statement about one byte is checked on its 256 values. -/
theorem forall_byte {P : Byte → Prop} (h : ∀ n : Fin 256, P (UInt8.ofFin n)) (b : Byte) : P b :=
  h b.toFin

/-- A statement about the bytes of a string is checked on each of them. -/
theorem forall_mem_of_all {P : Byte → Prop} [DecidablePred P] {s : Bytes}
    (h : (s.all fun c => decide (P c)) = true) : ∀ c ∈ s, P c :=
  fun c hc => of_decide_eq_true (List.all_eq_true.mp h c hc)

/-- To decide that all bytes of a string have a property, only the string is looked through. -/
instance (P : Byte → Prop) [DecidablePred P] (s : Bytes) : Decidable (∀ c ∈ s, P c) :=
  List.decidableBAll P s

/-! ## The C locale's character classes -/

/-- `isspace`: the blank, and the control characters 9 to 13. -/
def isSpace (c : Byte) : Bool := c == ' ' || (9 ≤ c && c ≤ 13)

/-- `isdigit`. -/
def isDigit (c : Byte) : Bool := '0' ≤ c && c ≤ '9'

/-- The value of a decimal digit. -/
def digitVal (c : Byte) : Nat := c.toNat - 48

/-- `toupper`. -/
def toUpper (c : Byte) : Byte := if 'a' ≤ c ∧ c ≤ 'z' then c - 32 else c

/-! ## Numbers in text -/

/-- The value of a run of decimal digits. -/
def decimal (ds : Bytes) : Nat := ds.foldl (fun n d => n * 10 + digitVal d) 0

/-- An optional sign: whether it was `-`, and what follows. -/
def readSign : Bytes → Bool × Bytes
  | [] => (false, [])
  | c :: s => if c = '-' then (true, s) else if c = '+' then (false, s) else (false, c :: s)

/-- `std::stoull(s)`: leading blanks, a sign (a negative number wraps), then as many
digits as there are. `none` is an exception: no digit (`invalid_argument`) or a
magnitude from 2^64 on (`out_of_range`). -/
def stoull (s : Bytes) : Option UInt64 :=
  let (neg, t) := readSign (s.dropWhile isSpace)
  let ds := t.takeWhile isDigit
  if ds = [] then none
  else if decimal ds ≥ 2 ^ 64 then none
  else if neg then some (0 - UInt64.ofNat (decimal ds))
  else some (UInt64.ofNat (decimal ds))

/-- `std::stoi`: `none` when there is no number or it is no `int`. -/
def stoi (s : Bytes) : Option Int :=
  let (neg, t) := readSign (s.dropWhile isSpace)
  let ds := t.takeWhile isDigit
  let n : Int := if neg then -(decimal ds) else decimal ds
  if ds = [] then none else if n < -2 ^ 31 ∨ n ≥ 2 ^ 31 then none else some n

/-! ## Searching and slicing -/

/-- `s.find(pat)`: the position of the first occurrence. -/
def find (pat : Bytes) : Bytes → Option Nat
  | [] => if pat = [] then some 0 else none
  | c :: s => if pat.isPrefixOf (c :: s) then some 0 else (find pat s).map (· + 1)

/-- `s.find_last_of(c)` for one character: the position of its last occurrence. -/
def findLastOf (c : Byte) : Bytes → Option Nat
  | [] => none
  | d :: s =>
    match findLastOf c s with
    | some i => some (i + 1)
    | none => if d = c then some 0 else none

/-- `s.substr(pos)`: throws `std::out_of_range` (`none`) when `pos > s.size()`. -/
def substr (s : Bytes) (pos : Nat) : Option Bytes :=
  if pos ≤ s.length then some (s.drop pos) else none

/-- An occurrence splits the string. -/
theorem find_eq_some {pat s : Bytes} {i : Nat} (h : find pat s = some i) :
    ∃ t, s = s.take i ++ pat ++ t ∧ i ≤ s.length := by
  induction s generalizing i with
  | nil =>
    rw [find] at h
    split at h
    · next hp =>
      subst hp
      obtain rfl := Option.some.inj h
      exact ⟨[], rfl, Nat.le_refl _⟩
    · cases h
  | cons c s ih =>
    rw [find] at h
    split at h
    · next hp =>
      obtain rfl := Option.some.inj h
      obtain ⟨t, ht⟩ := List.isPrefixOf_iff_prefix.mp hp
      exact ⟨t, by rw [List.take_zero, List.nil_append, ht], Nat.zero_le _⟩
    · obtain ⟨j, hj, rfl⟩ := Option.map_eq_some_iff.mp h
      obtain ⟨t, ht, hle⟩ := ih hj
      refine ⟨t, ?_, Nat.succ_le_succ hle⟩
      rw [List.take_succ_cons, List.cons_append, List.cons_append, ← ht]

/-- No occurrence: the pattern is at no position. -/
theorem find_eq_none {pat s : Bytes} (h : find pat s = none) (u t : Bytes) :
    s ≠ u ++ pat ++ t := by
  induction s generalizing u with
  | nil =>
    rintro hs
    rw [find] at h
    split at h
    · cases h
    · next hp =>
      have := List.append_eq_nil_iff.mp hs.symm
      exact hp (List.append_eq_nil_iff.mp this.1).2
  | cons c s ih =>
    rw [find] at h
    split at h
    · cases h
    · next hp =>
      rw [Option.map_eq_none_iff] at h
      rintro hs
      rcases u with - | ⟨d, u⟩
      · exact hp (List.isPrefixOf_iff_prefix.mpr ⟨t, hs.symm⟩)
      · rw [List.cons_append, List.cons_append, List.cons.injEq] at hs
        exact ih h u hs.2

/-- The first occurrence stays the first when the string grows. -/
theorem find_append {pat s : Bytes} {i : Nat} (t : Bytes) (h : find pat s = some i) :
    find pat (s ++ t) = some i := by
  induction s generalizing i with
  | nil =>
    rw [find] at h
    split at h
    · next hp =>
      subst hp
      obtain rfl := Option.some.inj h
      cases t <;> rfl
    · cases h
  | cons c s ih =>
    rw [find] at h
    rw [List.cons_append, find]
    split at h
    · next hp =>
      obtain rfl := Option.some.inj h
      have hpre : pat.isPrefixOf (c :: (s ++ t)) = true := by
        rw [List.isPrefixOf_iff_prefix] at hp ⊢
        exact hp.trans (List.prefix_append (c :: s) t)
      rw [if_pos hpre]
    · next hp =>
      obtain ⟨j, hj, rfl⟩ := Option.map_eq_some_iff.mp h
      -- the pattern fits in `s`, so no new occurrence at this position
      have hlen : pat.length ≤ (c :: s).length := by
        obtain ⟨u, hu, -⟩ := find_eq_some hj
        rw [hu]
        simp only [List.length_cons, List.length_append]
        omega
      have hpre : ¬ pat.isPrefixOf (c :: (s ++ t)) = true := by
        rw [List.isPrefixOf_iff_prefix]
        intro hpre
        have := List.prefix_of_prefix_length_le hpre (List.prefix_append (c :: s) t) hlen
        exact hp (List.isPrefixOf_iff_prefix.mpr this)
      rw [if_neg hpre, ih hj, Option.map_some]

/-- The string is shorter after an occurrence. -/
theorem length_drop_find_lt {pat s : Bytes} (hpat : pat ≠ []) {i k : Nat} (h : find pat s = some i)
    (hk : 0 < k) : (s.drop (i + k)).length < s.length := by
  rcases s with - | ⟨c, s⟩
  · rw [find, if_neg hpat] at h
    cases h
  · rw [List.length_drop, List.length_cons]
    omega

/-- A line and its end lie in the string. -/
theorem length_of_find_crlf {s : Bytes} {i : Nat} (h : find crlf s = some i) : i + 2 ≤ s.length := by
  obtain ⟨t, ht, hi⟩ := find_eq_some h
  have hlen := congrArg List.length ht
  simp only [List.length_append, List.length_take, crlf, List.length_cons, List.length_nil] at hlen
  omega

/-- A pattern is found at the front of what begins with it. -/
theorem find_front (pat t : Bytes) : find pat (pat ++ t) = some 0 := by
  rcases pat with - | ⟨c, pat⟩
  · rcases t with - | ⟨d, t⟩ <;> simp [find]
  · rw [List.cons_append, find, if_pos]
    exact List.isPrefixOf_iff_prefix.mpr ⟨t, rfl⟩

/-- A search passes over what does not contain the pattern's first character. -/
theorem find_skip {c : Byte} {pat u : Bytes} (hu : c ∉ u) (t : Bytes) :
    find (c :: pat) (u ++ t) = (find (c :: pat) t).map (· + u.length) := by
  induction u with
  | nil => exact Option.map_id'.symm
  | cons d u ih =>
    rw [List.mem_cons, not_or] at hu
    have hpre : ¬ (c :: pat).isPrefixOf (d :: (u ++ t)) = true := by
      rw [List.isPrefixOf_iff_prefix, List.cons_prefix_cons]
      exact fun h => hu.1 h.1
    rw [List.cons_append, find, if_neg hpre, ih hu.2, Option.map_map]
    rfl

/-- The first occurrence is where the first character first occurs, if the pattern is there. -/
theorem find_first {c : Byte} {pat u : Bytes} (hu : c ∉ u) (t : Bytes) :
    find (c :: pat) (u ++ (c :: pat ++ t)) = some u.length := by
  rw [find_skip hu, find_front, Option.map_some, Nat.zero_add]

/-- A search for one character stops at the first one. -/
theorem find_char_append {c : Byte} {u : Bytes} (hu : c ∉ u) (t : Bytes) :
    find [c] (u ++ c :: t) = some u.length := find_first hu t

theorem find_char_eq_none {c : Byte} {s : Bytes} : find [c] s = none ↔ c ∉ s := by
  refine ⟨fun h hc => ?_, fun hc => ?_⟩
  · obtain ⟨u, t, rfl⟩ := List.append_of_mem hc
    exact find_eq_none h u t (by simp)
  · rcases h : find [c] s with - | i
    · rfl
    · obtain ⟨t, ht, -⟩ := find_eq_some h
      exact absurd (ht ▸ by simp) hc

/-- The first occurrence of a character splits the string. -/
theorem find_char_eq_some {c : Byte} {s : Bytes} {i : Nat} (h : find [c] s = some i) :
    c ∉ s.take i ∧ s = s.take i ++ c :: s.drop (i + 1) := by
  have hc : c ∈ s := by
    by_contra hc
    rw [find_char_eq_none.mpr hc] at h
    cases h
  obtain ⟨u, t, rfl, hu⟩ := List.eq_append_cons_of_mem hc
  rw [find_char_append hu] at h
  obtain rfl := Option.some.inj h
  refine ⟨by rwa [List.take_left], ?_⟩
  rw [List.take_left, ← List.drop_drop, List.drop_left]
  rfl

theorem find_char_lt {c : Byte} {s : Bytes} {i : Nat} (h : find [c] s = some i) : i < s.length := by
  obtain ⟨t, ht, hle⟩ := find_eq_some h
  have hlen := congrArg List.length ht
  simp only [List.length_append, List.length_take, List.length_singleton] at hlen
  omega

/-- No last occurrence: the character does not occur. -/
theorem findLastOf_eq_none {c : Byte} {s : Bytes} (h : findLastOf c s = none) : c ∉ s := by
  induction s with
  | nil => exact List.not_mem_nil
  | cons d s ih =>
    rw [findLastOf] at h
    rcases hs : findLastOf c s with - | j
    · rw [hs] at h
      have hd : d ≠ c := fun hd => by simp [hd] at h
      exact fun hm => (List.mem_cons.mp hm).elim (fun hc => hd hc.symm) (ih hs)
    · rw [hs] at h
      cases h

/-- The last occurrence splits the string, with none after it. -/
theorem findLastOf_eq_some {c : Byte} {s : Bytes} {i : Nat} (h : findLastOf c s = some i) :
    s = s.take i ++ c :: s.drop (i + 1) ∧ c ∉ s.drop (i + 1) := by
  induction s generalizing i with
  | nil => cases h
  | cons d s ih =>
    rw [findLastOf] at h
    rcases hs : findLastOf c s with - | j
    · rw [hs] at h
      obtain ⟨rfl, hi⟩ := Option.ite_none_right_eq_some.mp h
      obtain rfl := Option.some.inj hi
      exact ⟨rfl, findLastOf_eq_none hs⟩
    · rw [hs] at h
      obtain rfl := Option.some.inj h
      obtain ⟨heq, hnot⟩ := ih hs
      refine ⟨?_, hnot⟩
      rw [List.take_succ_cons, List.drop_succ_cons, List.cons_append, ← heq]

open PrefixSearch in
theorem before_of_findLastOf_none {c : Byte} {s : Bytes} (h : findLastOf c s = none) :
    before c s = [] := before_of_not_mem (findLastOf_eq_none h)

open PrefixSearch in
/-- A search that goes on from the last occurrence takes the cuts in turn. -/
theorem before_of_findLastOf {c : Byte} {s : Bytes} {i : Nat} (h : findLastOf c s = some i) :
    before c s = cuts c (s.take i) := by
  obtain ⟨hsplit, hrest⟩ := findLastOf_eq_some h
  exact (congrArg (before c) hsplit).trans (before_last hrest)

/-- The last occurrence is not before another one. -/
theorem exists_findLastOf (c : Byte) (u t : Bytes) :
    ∃ i, findLastOf c (u ++ c :: t) = some i ∧ u.length ≤ i := by
  induction u with
  | nil =>
    rw [List.nil_append, findLastOf]
    rcases findLastOf c t with - | j
    · exact ⟨0, if_pos rfl, Nat.le_refl 0⟩
    · exact ⟨j + 1, rfl, Nat.zero_le _⟩
  | cons d u ih =>
    obtain ⟨i, hi, hle⟩ := ih
    rw [List.cons_append, findLastOf, hi]
    exact ⟨i + 1, rfl, Nat.succ_le_succ hle⟩

/-- A last occurrence lies in the string. -/
theorem findLastOf_lt {c : Byte} {s : Bytes} {i : Nat} (h : findLastOf c s = some i) :
    i < s.length := by
  have hlen := congrArg List.length (findLastOf_eq_some h).1
  rw [List.length_append, List.length_cons, List.length_take, List.length_drop] at hlen
  omega

/-- The first occurrence splits a list in one way. -/
theorem first_unique {α : Type} {c : α} {s t s' t' : List α} (heq : s ++ c :: t = s' ++ c :: t')
    (hs : c ∉ s) (hs' : c ∉ s') : s = s' ∧ t = t' := by
  induction s generalizing s' with
  | nil =>
    rcases s' with - | ⟨d, s'⟩
    · exact ⟨rfl, (List.cons.inj heq).2⟩
    · exact absurd ((List.cons.inj heq).1 ▸ List.mem_cons_self) hs'
  | cons d s ih =>
    rcases s' with - | ⟨d', s'⟩
    · exact absurd ((List.cons.inj heq).1 ▸ List.mem_cons_self) hs
    · obtain ⟨rfl, htail⟩ := List.cons.inj heq
      obtain ⟨rfl, ht⟩ := ih htail (List.not_mem_of_not_mem_cons hs) (List.not_mem_of_not_mem_cons hs')
      exact ⟨rfl, ht⟩

/-- An occurrence is the last one, or before it. -/
theorem last_split {c : Byte} {s u t t' : Bytes} (h : s ++ c :: t = u ++ c :: t') (ht : c ∉ t) :
    u = s ∨ ∃ v, s = u ++ c :: v ∧ t' = v ++ c :: t := by
  rcases List.append_eq_append_iff.mp h with ⟨a, rfl, ha⟩ | ⟨a, rfl, ha⟩
  · rcases a with - | ⟨d, a⟩
    · exact Or.inl (List.append_nil _)
    · rw [(List.cons.inj ha).2] at ht
      exact absurd (List.mem_append_right _ List.mem_cons_self) ht
  · rcases a with - | ⟨d, a⟩
    · exact Or.inl (List.append_nil _).symm
    · obtain ⟨rfl, hrest⟩ := List.cons.inj ha
      exact Or.inr ⟨a, rfl, hrest⟩

/-! ## Positions in an `int` -/

/-- A 64-bit value that is stored in an `int`. -/
def toInt32 (x : Int) : Int := x.bmod (2 ^ 32)

/-- `int pos = s.find(pat)`; `npos` becomes -1. -/
def findInt (pat s : Bytes) : Int :=
  match find pat s with
  | some i => toInt32 i
  | none => -1

/-- `int pos = s.find_last_of(c)`. -/
def findLastOfInt (c : Byte) (s : Bytes) : Int :=
  match findLastOf c s with
  | some i => toInt32 i
  | none => -1

/-- `int pos = s.find_last_of(c) + 1`; behind `npos` is 0. -/
def behindLastInt (c : Byte) (s : Bytes) : Int :=
  match findLastOf c s with
  | some i => toInt32 (i + 1)
  | none => 0

/-- An `int` where a `std::size_t` is needed. -/
def unsignedSize (pos : Int) : Nat := (pos % 2 ^ 64).toNat

theorem toInt32_eq {x : Int} (hle : -2 ^ 31 ≤ x) (hlt : x < 2 ^ 31) : toInt32 x = x := by
  rw [toInt32]
  apply Int.bmod_eq_of_le
  · simpa using hle
  · simpa using hlt

/-- Above the range of `int` a position is negative. -/
theorem toInt32_wrap {x : Int} (hle : 2 ^ 31 ≤ x) (hlt : x < 2 ^ 32) : toInt32 x = x - 2 ^ 32 := by
  rw [toInt32, Int.bmod_def]
  split
  · omega
  · omega

theorem unsignedSize_nat {n : Nat} (h : n < 2 ^ 64) : unsignedSize n = n := by
  rw [unsignedSize]
  omega

theorem unsignedSize_npos : unsignedSize (-1) = 2 ^ 64 - 1 := by decide

/-- A negative position is behind the end of every string there is. -/
theorem le_unsignedSize {p : Int} (hle : -2 ^ 31 ≤ p) (hlt : p < 0) :
    2 ^ 64 - 2 ^ 31 ≤ unsignedSize p := by
  rw [unsignedSize]
  omega

section Int

variable {pat s : Bytes} {c : Byte} {i : Nat}

theorem findInt_some (h : find pat s = some i) (hi : i < 2 ^ 31) : findInt pat s = i := by
  rw [findInt, h]
  exact toInt32_eq (by omega) (by omega)

theorem findInt_wrap (h : find pat s = some i) (hle : 2 ^ 31 ≤ i) (hlt : i < 2 ^ 32) :
    findInt pat s = i - 2 ^ 32 := by
  rw [findInt, h]
  exact toInt32_wrap (by omega) (by omega)

theorem findInt_none (h : find pat s = none) : findInt pat s = -1 := by
  rw [findInt, h]

theorem findLastOfInt_some (h : findLastOf c s = some i) (hi : i < 2 ^ 31) :
    findLastOfInt c s = i := by
  rw [findLastOfInt, h]
  exact toInt32_eq (by omega) (by omega)

theorem findLastOfInt_wrap (h : findLastOf c s = some i) (hle : 2 ^ 31 ≤ i) (hlt : i < 2 ^ 32) :
    findLastOfInt c s = i - 2 ^ 32 := by
  rw [findLastOfInt, h]
  exact toInt32_wrap (by omega) (by omega)

theorem findLastOfInt_none (h : findLastOf c s = none) : findLastOfInt c s = -1 := by
  rw [findLastOfInt, h]

theorem behindLastInt_some (h : findLastOf c s = some i) (hi : i + 1 < 2 ^ 31) :
    behindLastInt c s = i + 1 := by
  rw [behindLastInt, h]
  exact toInt32_eq (by omega) (by omega)

theorem behindLastInt_wrap (h : findLastOf c s = some i) (hle : 2 ^ 31 ≤ i + 1) (hlt : i + 1 < 2 ^ 32) :
    behindLastInt c s = i + 1 - 2 ^ 32 := by
  rw [behindLastInt, h]
  exact toInt32_wrap (by omega) (by omega)

theorem behindLastInt_none (h : findLastOf c s = none) : behindLastInt c s = 0 := by
  rw [behindLastInt, h]

end Int

end LowKeyWebServer
