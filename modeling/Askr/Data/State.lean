import Mathlib.Init

/-!
# Stateful computations

What holds of the state after a computation in the state monad (`Ends`, and `Keeps` for what it
leaves true), and what every result of it satisfies (`Yields`), by the way it is put together.
-/

namespace Askr.State

variable {σ α β : Type} {I J K : σ → Prop} {Q : α → Prop} {R : β → Prop} {x y : StateM σ α}
  {f : α → StateM σ β}

/-- From a state with `I` the computation goes to one with `J`. -/
def Ends (I : σ → Prop) (x : StateM σ α) (J : σ → Prop) : Prop := ∀ s, I s → J (x s).2

/-- The computation keeps `I`. -/
abbrev Keeps (I : σ → Prop) (x : StateM σ α) : Prop := Ends I x I

/-- Every result of the computation satisfies `Q`. -/
def Yields (Q : α → Prop) (x : StateM σ α) : Prop := ∀ s, Q (x s).1

theorem Ends.pure (h : ∀ s, I s → J s) (a : α) : Ends I (Pure.pure a : StateM σ α) J := h

theorem Ends.bind (hx : Ends I x J) (hf : ∀ a, Ends J (f a) K) : Ends I (x >>= f) K :=
  fun s hs => hf _ _ (hx s hs)

theorem Ends.ite {c : Prop} [Decidable c] (hx : c → Ends I x J) (hy : ¬ c → Ends I y J) :
    Ends I (if c then x else y) J := by
  split
  · exact hx ‹_›
  · exact hy ‹_›

theorem Ends.mono (hx : Ends I x J) (h : ∀ s, J s → K s) : Ends I x K := fun s hs => h _ (hx s hs)

theorem Keeps.pure (a : α) : Keeps I (Pure.pure a : StateM σ α) := fun _ hs => hs

theorem Yields.pure {a : α} (h : Q a) : Yields Q (Pure.pure a : StateM σ α) := fun _ => h

theorem Yields.bind (hx : Yields Q x) (hf : ∀ a, Q a → Yields R (f a)) : Yields R (x >>= f) :=
  fun s => hf _ (hx s) _

theorem Yields.mono {Q' : α → Prop} (hx : Yields Q x) (h : ∀ a, Q a → Q' a) : Yields Q' x :=
  fun s => h _ (hx s)

end Askr.State
