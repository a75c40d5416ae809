import Mathlib.Data.List.Basic

/-!
# Values collected by key

A map from keys to values as the list of its entries. `entry m k d f` changes the value under a key,
which is `d` if there was none; `collect` does so for the items of a list, one after the other, each
under its own key. What the items of a key keep holds of the value they leave (`collect_inv`).
-/

namespace Tally

open List

variable {α κ ν : Type} [DecidableEq κ]

/-- The value under `k`, or `d` if there is none, is changed by `f`. -/
def entry (m : List (κ × ν)) (k : κ) (d : ν) (f : ν → ν) : List (κ × ν) :=
  match m with
  | [] => [(k, f d)]
  | (k', v) :: m => if k' = k then (k', f v) :: m else (k', v) :: entry m k d f

/-- Each item changes the value under its key. -/
def collect (key : α → κ) (d : ν) (f : α → ν → ν) (m : List (κ × ν)) : List α → List (κ × ν)
  | [] => m
  | x :: xs => collect key d f (entry m (key x) d (f x)) xs

variable {m : List (κ × ν)} {d : ν} {P : κ → ν → Prop}

theorem entry_inv {k : κ} {f : ν → ν} (hd : P k d) (hf : ∀ v, P k v → P k (f v))
    (hm : ∀ e ∈ m, P e.1 e.2) : ∀ e ∈ entry m k d f, P e.1 e.2 := by
  induction m with
  | nil =>
    intro e he
    rw [mem_singleton.1 he]
    exact hf d hd
  | cons x m ih =>
    obtain ⟨k', v⟩ := x
    obtain ⟨hx, hrest⟩ := forall_mem_cons.1 hm
    rw [entry]
    split
    · rename_i heq
      refine forall_mem_cons.2 ⟨?_, hrest⟩
      rw [heq] at hx ⊢
      exact hf v hx
    · exact forall_mem_cons.2 ⟨hx, ih hrest⟩

theorem collect_inv (P : κ → ν → Prop) {key : α → κ} {f : α → ν → ν} {xs : List α} (hd : ∀ k, P k d)
    (hf : ∀ x ∈ xs, ∀ v, P (key x) v → P (key x) (f x v)) (hm : ∀ e ∈ m, P e.1 e.2) :
    ∀ e ∈ collect key d f m xs, P e.1 e.2 := by
  induction xs generalizing m with
  | nil => exact hm
  | cons x xs ih =>
    obtain ⟨hx, hxs⟩ := forall_mem_cons.1 hf
    exact ih hxs (entry_inv (hd _) hx hm)

end Tally
