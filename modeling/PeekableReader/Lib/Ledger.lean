import PeekableReader.Lib.Stream

/-!
# Ledgers of handed-over items

A `Ledger` on a type of states says, for two states, which items left on the way from
one to the other: `Hands s xs s'`. Nothing leaves where nothing happens, and what leaves
in two stages leaves in order.

A `Source` is the common case in which a state determines all it has left to hand over,
as a finite or infinite sequence. `Ledger.any` keeps no account; facts proved for every
ledger are used with it where the account does not matter. `Ledger.steps` keeps the account
of a machine that hands over items as it goes, whatever they are.
-/

namespace PeekableReader

open Stream'

class Ledger (σ : Type) (α : outParam Type) where
  /-- Going from `s` to `s'` handed over `xs`. -/
  Hands (s : σ) (xs : List α) (s' : σ) : Prop
  refl (s : σ) : Hands s [] s
  trans {s s' s'' : σ} {xs ys : List α} :
    Hands s xs s' → Hands s' ys s'' → Hands s (xs ++ ys) s''

/-- The items a state has yet to hand over. -/
class Source (σ : Type) (α : outParam Type) where
  rest (s : σ) : Seq α

variable {σ α : Type}

instance [Source σ α] : Ledger σ α where
  Hands s xs s' := Source.rest s = prepend xs (Source.rest s')
  refl s := (prepend_nil _).symm
  trans h h' := by rw [h, h', prepend_prepend]

theorem hands_iff_rest [Source σ α] {s s' : σ} {xs : List α} :
    Ledger.Hands s xs s' ↔ Source.rest s = prepend xs (Source.rest s') := Iff.rfl

/-- The ledger that allows everything. -/
@[reducible] def Ledger.any (σ α : Type) : Ledger σ α where
  Hands _ _ _ := True
  refl _ := trivial
  trans _ _ := trivial

/-- Some steps one after the other, and what they handed over. -/
inductive Ledger.Path (Step : σ → List α → σ → Prop) (s : σ) : List α → σ → Prop
  | nil : Path Step s [] s
  | snoc {xs ys : List α} {s' s'' : σ} (path : Path Step s xs s') (step : Step s' ys s'') :
      Path Step s (xs ++ ys) s''

namespace Ledger.Path

variable {Step : σ → List α → σ → Prop} {s s' s'' : σ} {xs ys : List α}

theorem single (step : Step s xs s') : Path Step s xs s' := nil.snoc step

theorem trans (h : Path Step s xs s') (h' : Path Step s' ys s'') : Path Step s (xs ++ ys) s'' := by
  induction h' with
  | nil => rwa [List.append_nil]
  | snoc _ step ih => rw [← List.append_assoc]; exact ih.snoc step

end Ledger.Path

/-- Two sequences, each in its own order, that make up a third. -/
inductive Interleave {α : Type} : List α → List α → List α → Prop
  | nil : Interleave [] [] []
  | left {xs ys zs : List α} (h : Interleave xs ys zs) (d : List α) :
      Interleave (xs ++ d) ys (zs ++ d)
  | right {xs ys zs : List α} (h : Interleave xs ys zs) (d : List α) :
      Interleave xs (ys ++ d) (zs ++ d)

/-- The ledger of what the steps between two states handed over. -/
@[reducible] def Ledger.steps (Step : σ → List α → σ → Prop) : Ledger σ α where
  Hands := Path Step
  refl _ := .nil
  trans := Path.trans

end PeekableReader
