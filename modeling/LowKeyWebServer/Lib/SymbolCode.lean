/-!
# Symbol codes

A *symbol code* gives every symbol the words that stand for it, possibly several
(`Word b w`). `Encodes Word bs ws` says that `ws` is made of one such word for each
symbol of `bs`, in order.

The rule: a reader that takes a word off the front of whatever follows it, and puts its
symbol to the result for the rest, computes the fold over the symbols (`Encodes.read`).
-/

universe u v w

namespace SymbolCode

variable {β : Type u} {α : Type v}

/-- A string of words for the symbols, in order. -/
inductive Encodes (Word : β → List α → Prop) : List β → List α → Prop where
  /-- nothing stands for nothing -/
  | nil : Encodes Word [] []
  /-- a word for the first symbol, then words for the rest -/
  | cons {b : β} {bs : List β} {w ws : List α} :
      Word b w → Encodes Word bs ws → Encodes Word (b :: bs) (w ++ ws)

variable {Word : β → List α → Prop} {bs : List β} {ws : List α}

/-- **Reading a coded string** is the fold over its symbols. -/
theorem Encodes.read {γ : Type w} {read : List α → γ} {put : β → γ → γ} (h : Encodes Word bs ws)
    (hread : ∀ b w t, Word b w → read (w ++ t) = put b (read t)) :
    read ws = bs.foldr put (read []) := by
  induction h with
  | nil => rfl
  | cons hw _ ih => rw [hread _ _ _ hw, ih, List.foldr_cons]

end SymbolCode
