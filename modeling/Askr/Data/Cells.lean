import Askr.Data.Bytes
import Mathlib.Data.List.Induction
import Mathlib.Logic.Function.Basic

/-!
# Memory cells and stores

A record in shared memory is a family of cells, one for each field and one for each byte of an
array, and code that updates it is a list of stores. `apply` makes them in order. A process that
dies in the middle has made the first `n` of them, `ws.take n`.

`copy f bs` are the stores of a byte copy into the array `f`, and `bytes cells f n` is what a copy
of its first `n` bytes out of it reads: after a copy that is the bytes copied, and behind them what
the array held before (`bytes_apply_copy`).
-/

namespace Cells

open Function List

variable {F : Type}

/-- The stores of a copy into the array `f`. -/
def copy (f : Nat → F) (bs : Bytes) : List (F × Nat) := bs.mapIdx fun j b => (f j, b.toNat)

/-- The first `n` bytes of the array `f`. -/
def bytes (cells : F → Nat) (f : Nat → F) (n : Nat) : Bytes :=
  (List.range n).map fun j => UInt8.ofNat (cells (f j))

variable (f : Nat → F)

@[simp] theorem length_copy (bs : Bytes) : (copy f bs).length = bs.length := by
  simp [copy]

@[simp] theorem length_bytes (cells : F → Nat) (f : Nat → F) (n : Nat) :
    (bytes cells f n).length = n := by
  simp [bytes]

theorem take_copy (bs : Bytes) (n : Nat) : (copy f bs).take n = copy f (bs.take n) := by
  refine ext_getElem? fun j => ?_
  simp only [copy, getElem?_take, getElem?_mapIdx]
  split <;> rfl

theorem bytes_congr {cells cells' : F → Nat} {f : Nat → F} (h : ∀ j, cells (f j) = cells' (f j))
    (n : Nat) : bytes cells f n = bytes cells' f n := by
  simp only [bytes, h]

/-! ## Stores -/

variable [DecidableEq F]

/-- The stores, made in order. -/
def apply (cells : F → Nat) (ws : List (F × Nat)) : F → Nat :=
  ws.foldl (fun cells w => update cells w.1 w.2) cells

@[simp] theorem apply_nil (cells : F → Nat) : apply cells [] = cells := rfl
@[simp] theorem apply_cons (cells : F → Nat) (x : F) (v : Nat) (ws : List (F × Nat)) :
    apply cells ((x, v) :: ws) = apply (update cells x v) ws := rfl
@[simp] theorem apply_append (cells : F → Nat) (ws ws' : List (F × Nat)) :
    apply cells (ws ++ ws') = apply (apply cells ws) ws' := foldl_append

theorem apply_of_forall_ne {x : F} {ws : List (F × Nat)} (h : ∀ w ∈ ws, w.1 ≠ x)
    (cells : F → Nat) : apply cells ws x = cells x := by
  induction ws generalizing cells with
  | nil => rfl
  | cons w ws ih =>
    obtain ⟨hw, hws⟩ := forall_mem_cons.1 h
    exact (ih hws _).trans (update_of_ne (Ne.symm hw) _ _)

theorem apply_update_of_ne {x y : F} (h : y ≠ x) (v : Nat) (ws : List (F × Nat))
    (cells : F → Nat) : apply (update cells x v) ws y = apply cells ws y := by
  induction ws generalizing cells with
  | nil => exact update_of_ne h v cells
  | cons w ws ih =>
    obtain ⟨z, u⟩ := w
    rw [apply_cons, apply_cons]
    rcases eq_or_ne z x with rfl | hz
    · rw [update_idem]
    · rw [update_comm hz.symm, ih]

variable {f : Nat → F}

theorem apply_copy_of_ne {x : F} (h : ∀ j, f j ≠ x) (cells : F → Nat) (bs : Bytes) :
    apply cells (copy f bs) x = cells x := by
  refine apply_of_forall_ne (fun w hw => ?_) cells
  obtain ⟨j, hj, rfl⟩ := mem_mapIdx.1 hw
  exact h j

theorem apply_copy (hf : f.Injective) (cells : F → Nat) (bs : Bytes) (j : Nat) :
    apply cells (copy f bs) (f j) = (bs[j]?.map UInt8.toNat).getD (cells (f j)) := by
  induction bs using reverseRecOn with
  | nil => rfl
  | append_singleton bs b ih =>
    rw [copy, mapIdx_concat, ← copy, apply_append, apply_cons, apply_nil]
    rcases eq_or_ne j bs.length with rfl | hne
    · simp
    · rw [update_of_ne (hf.ne hne), ih]
      rcases Nat.lt_or_ge j bs.length with hlt | hge
      · rw [getElem?_append_left hlt]
      · rw [getElem?_eq_none hge, getElem?_eq_none]
        rw [length_append, length_singleton]
        omega

theorem bytes_apply_copy (hf : f.Injective) (cells : F → Nat) (bs : Bytes) (n : Nat) :
    bytes (apply cells (copy f bs)) f n = bs.take n ++ (bytes cells f n).drop bs.length := by
  refine ext_getElem? fun j => ?_
  rcases Nat.lt_or_ge j n with hn | hn
  · rw [bytes, getElem?_map, getElem?_range hn, Option.map_some, apply_copy hf]
    rcases Nat.lt_or_ge j bs.length with hj | hj
    · rw [getElem?_append_left (by rw [length_take]; omega), getElem?_take_of_lt hn,
        getElem?_eq_getElem hj]
      simp
    · rw [getElem?_append_right (by rw [length_take]; omega), getElem?_drop,
        length_take, Nat.min_eq_right (by omega), Nat.add_sub_cancel' hj,
        getElem?_eq_none hj, bytes, getElem?_map, getElem?_range hn]
      rfl
  · rw [getElem?_eq_none (by simpa using hn), getElem?_eq_none]
    rw [length_append, length_take, length_drop, length_bytes]
    omega

theorem bytes_apply_copy_take (hf : f.Injective) (cells : F → Nat) (bs : Bytes) (m : Nat) :
    bytes (apply cells (copy f (bs.take m))) f bs.length =
      bs.take m ++ (bytes cells f bs.length).drop m := by
  rw [bytes_apply_copy hf, take_of_length_le (length_take_le' m bs), length_take]
  rcases Nat.le_total m bs.length with hm | hm
  · rw [Nat.min_eq_left hm]
  · rw [Nat.min_eq_right hm, drop_of_length_le (by simp), drop_of_length_le (by simpa)]

theorem bytes_apply_copy_self (hf : f.Injective) (cells : F → Nat) (bs : Bytes) :
    bytes (apply cells (copy f bs)) f bs.length = bs := by
  have h := bytes_apply_copy_take hf cells bs bs.length
  rwa [take_length, drop_of_length_le (by simp), append_nil] at h

theorem bytes_eq_of_copy (hf : f.Injective) {cells' : F → Nat} (cells : F → Nat)
    {bs : Bytes} {n : Nat} (h : ∀ j, cells' (f j) = apply cells (copy f bs) (f j))
    (hn : n = bs.length) : bytes cells' f n = bs := by
  rw [bytes_congr h, hn, bytes_apply_copy_self hf]

end Cells
