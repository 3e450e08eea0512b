import Mathlib.Data.List.TakeWhile
import LowKeyWebServer.Bytes

/-!
# Numbers in text

What `std::stoi` and `std::stoull` read of a string: leading blanks, a sign, and as many digits
as there are (`leadingDigits`).
-/

namespace LowKeyWebServer

/-- The sign of a number in text. -/
inductive Sign : Type where
  | none | plus | minus
  deriving DecidableEq

namespace Sign

def text : Sign → Bytes
  | none => []
  | plus => ['+']
  | minus => ['-']

def apply : Sign → Nat → Int
  | none, n => n
  | plus, n => n
  | minus, n => -n

end Sign

/-- The string begins with a number in the range of `int`: blanks, a sign, and all the digits
that follow. -/
def LeadingInt (s : Bytes) (n : Int) : Prop :=
  ∃ blanks sign digits rest, s = blanks ++ (Sign.text sign ++ (digits ++ rest)) ∧
    (∀ c ∈ blanks, isSpace c = true) ∧
    digits ≠ [] ∧ (∀ c ∈ digits, isDigit c = true) ∧ (∀ c ∈ rest.head?, isDigit c = false) ∧
    n = sign.apply (decimal digits) ∧ -2 ^ 31 ≤ n ∧ n < 2 ^ 31

theorem readSign_spec (t : Bytes) :
    ∃ sign, t = Sign.text sign ++ (readSign t).2 ∧
      ∀ n : Nat, (if (readSign t).1 then -(n : Int) else n) = sign.apply n := by
  rcases t with - | ⟨c, t⟩
  · exact ⟨.none, rfl, fun n => rfl⟩
  · by_cases hminus : c = '-'
    · subst hminus
      exact ⟨.minus, rfl, fun n => rfl⟩
    · by_cases hplus : c = '+'
      · subst hplus
        exact ⟨.plus, rfl, fun n => rfl⟩
      · refine ⟨.none, ?_, fun n => ?_⟩ <;> rw [readSign, if_neg hminus, if_neg hplus] <;> rfl

/-- A digit is neither a blank nor a sign. -/
theorem isDigit_plain {c : Byte} (hc : isDigit c = true) : isSpace c = false ∧ c ≠ '-' ∧ c ≠ '+' := by
  have hge : 48 ≤ c.toNat := by
    rw [isDigit, Bool.and_eq_true] at hc
    exact UInt8.le_iff_toNat_le.mp (of_decide_eq_true hc.1)
  refine ⟨?_, ?_, ?_⟩
  · rw [isSpace, Bool.or_eq_false_iff, Bool.and_eq_false_iff]
    refine ⟨beq_false_of_ne ?_, Or.inr (decide_eq_false fun hle => ?_)⟩
    · rintro rfl
      exact absurd hge (by decide)
    · have hle : c.toNat ≤ 13 := UInt8.le_iff_toNat_le.mp hle
      omega
  · rintro rfl
    exact absurd hge (by decide)
  · rintro rfl
    exact absurd hge (by decide)

theorem readSign_text (sign : Sign) {digits : Bytes} (hne : digits ≠ [])
    (hdigits : ∀ c ∈ digits, isDigit c = true) (rest : Bytes) :
    (readSign (sign.text ++ (digits ++ rest))).2 = digits ++ rest ∧
      ∀ n : Nat, (if (readSign (sign.text ++ (digits ++ rest))).1 then -(n : Int) else n) =
        sign.apply n := by
  cases sign with
  | none =>
    obtain ⟨d, ds, rfl⟩ := List.exists_cons_of_ne_nil hne
    obtain ⟨-, hminus, hplus⟩ := isDigit_plain (hdigits d List.mem_cons_self)
    rw [Sign.text, List.nil_append, List.cons_append, readSign, if_neg hminus, if_neg hplus]
    exact ⟨rfl, fun n => rfl⟩
  | plus => exact ⟨rfl, fun n => rfl⟩
  | minus => exact ⟨rfl, fun n => rfl⟩

/-- The prefix of a class ends where a letter outside it stands. -/
theorem takeWhile_append_head {α : Type} {p : α → Bool} {s t : List α} (hs : ∀ c ∈ s, p c = true)
    (ht : ∀ c ∈ t.head?, p c = false) :
    (s ++ t).takeWhile p = s ∧ (s ++ t).dropWhile p = t := by
  rw [List.takeWhile_append_of_pos hs, List.dropWhile_append_of_pos hs]
  rcases t with - | ⟨c, t⟩
  · exact ⟨List.append_nil s, rfl⟩
  · have hc := ht c rfl
    rw [List.takeWhile_cons_of_neg (by simp [hc]), List.dropWhile_cons_of_neg (by simp [hc])]
    exact ⟨List.append_nil s, rfl⟩

/-- **`std::stoi`** in terms of the text. -/
theorem stoi_eq_some_iff {s : Bytes} {n : Int} : stoi s = some n ↔ LeadingInt s n := by
  constructor
  · intro h
    obtain ⟨sign, htext, happly⟩ := readSign_spec (s.dropWhile isSpace)
    rw [stoi] at h
    simp only [happly] at h
    by_cases hds : (readSign (s.dropWhile isSpace)).2.takeWhile isDigit = []
    · rw [if_pos hds] at h
      cases h
    · rw [if_neg hds] at h
      split at h
      · cases h
      · next hrange =>
        obtain rfl := Option.some.inj h
        refine ⟨s.takeWhile isSpace, sign, (readSign (s.dropWhile isSpace)).2.takeWhile isDigit,
          (readSign (s.dropWhile isSpace)).2.dropWhile isDigit, ?_, ?_, hds, ?_, ?_, rfl, ?_, ?_⟩
        · rw [List.takeWhile_append_dropWhile, ← htext, List.takeWhile_append_dropWhile]
        · exact List.all_eq_true.mp List.all_takeWhile
        · exact List.all_eq_true.mp List.all_takeWhile
        · intro c hc
          have hnot := List.head?_dropWhile_not isDigit (readSign (s.dropWhile isSpace)).2
          rwa [Option.mem_def.mp hc] at hnot
        · omega
        · omega
  · rintro ⟨blanks, sign, digits, rest, rfl, hblanks, hne, hdigits, hrest, rfl, hlow, hhigh⟩
    have hhead : ∀ c ∈ (sign.text ++ (digits ++ rest)).head?, isSpace c = false := by
      intro c hc
      cases sign with
      | none =>
        obtain ⟨d, ds, rfl⟩ := List.exists_cons_of_ne_nil hne
        obtain rfl := Option.some.inj hc
        exact (isDigit_plain (hdigits d List.mem_cons_self)).1
      | plus =>
        obtain rfl := Option.some.inj hc
        decide
      | minus =>
        obtain rfl := Option.some.inj hc
        decide
    obtain ⟨htext, happly⟩ := readSign_text sign hne hdigits rest
    rw [stoi, (takeWhile_append_head hblanks hhead).2]
    simp only [htext, happly, (takeWhile_append_head hdigits hrest).1]
    rw [if_neg hne, if_neg (by omega)]

/-! ## The digits that are read -/

/-- The digits behind leading blanks and a sign. -/
def leadingDigits (s : Bytes) : Bytes := (readSign (s.dropWhile isSpace)).2.takeWhile isDigit

/-- A string of digits is read as it is. -/
theorem readSign_digits {s : Bytes} (hs : ∀ c ∈ s, isDigit c = true) :
    readSign (s.dropWhile isSpace) = (false, s) := by
  rcases s with - | ⟨c, s⟩
  · rfl
  · obtain ⟨hspace, hminus, hplus⟩ := isDigit_plain (hs c List.mem_cons_self)
    rw [List.dropWhile_cons_of_neg (by simp [hspace]), readSign, if_neg hminus, if_neg hplus]

theorem leadingDigits_digits {s : Bytes} (hs : ∀ c ∈ s, isDigit c = true) : leadingDigits s = s := by
  rw [leadingDigits, readSign_digits hs]
  exact (List.takeWhile_eq_self_iff).mpr hs

theorem stoull_eq (s : Bytes) : stoull s =
    if leadingDigits s = [] then none
    else if decimal (leadingDigits s) ≥ 2 ^ 64 then none
    else if (readSign (s.dropWhile isSpace)).1 = true then
      some (0 - UInt64.ofNat (decimal (leadingDigits s)))
    else some (UInt64.ofNat (decimal (leadingDigits s))) := rfl

/-- A positive number is read exactly where the digits are one in the range of the type. -/
theorem stoull_pos_iff {s : Bytes} : (∃ n : UInt64, stoull s = some n ∧ n > 0) ↔
    0 < decimal (leadingDigits s) ∧ decimal (leadingDigits s) < 2 ^ 64 := by
  rw [stoull_eq]
  by_cases hnil : leadingDigits s = []
  · rw [if_pos hnil, hnil]
    simp [decimal]
  · rw [if_neg hnil]
    by_cases hrange : decimal (leadingDigits s) ≥ 2 ^ 64
    · rw [if_pos hrange]
      refine ⟨?_, fun h => absurd h.2 (Nat.not_lt.mpr hrange)⟩
      rintro ⟨n, h, -⟩
      cases h
    · rw [if_neg hrange]
      have hlt : decimal (leadingDigits s) < 2 ^ 64 := Nat.not_le.mp hrange
      have hne : UInt64.ofNat (decimal (leadingDigits s)) ≠ 0 ↔ 0 < decimal (leadingDigits s) := by
        rw [Nat.pos_iff_ne_zero, ne_eq, ← UInt64.toNat_inj, UInt64.toNat_ofNat_of_lt' hlt]
        rfl
      rw [and_iff_left hlt, ← hne]
      -- a negative number wraps to a positive one
      split
      · simp only [Option.some.injEq, exists_eq_left', gt_iff_lt, UInt64.pos_iff_ne_zero,
          UInt64.zero_sub, UInt64.neg_ne_zero]
      · simp only [Option.some.injEq, exists_eq_left', gt_iff_lt, UInt64.pos_iff_ne_zero]

/-- The value of a string of digits. -/
theorem stoull_digits {s : Bytes} (hs : ∀ c ∈ s, isDigit c = true) (hne : s ≠ [])
    (hrange : decimal s < 2 ^ 64) : stoull s = some (UInt64.ofNat (decimal s)) := by
  rw [stoull_eq, leadingDigits_digits hs, readSign_digits hs, if_neg hne,
    if_neg (Nat.not_le.mpr hrange)]
  rfl

/-- `std::stoi` on digits: only the range of `int` is checked. -/
theorem stoi_digits {s : Bytes} (hs : ∀ c ∈ s, isDigit c = true) (hne : s ≠ []) :
    stoi s = if decimal s ≥ 2 ^ 31 then none else some (decimal s : Int) := by
  rw [stoi, readSign_digits hs]
  simp only [List.takeWhile_eq_self_iff.mpr hs, if_neg hne, Bool.false_eq_true, if_false]
  by_cases hrange : decimal s ≥ 2 ^ 31
  · rw [if_pos hrange, if_pos (by omega)]
  · rw [if_neg hrange, if_neg (by omega)]

end LowKeyWebServer
