import Askr.Data.Bytes
import Mathlib.Data.List.Sort

/-!
# Sorted lists of byte strings

`sort` of a list of strings is by bytes, and what is equal is next to each other afterwards:
`allDifferent` of a sorted list is that no string is there twice (`allDifferent_sort`), and `dedup`
leaves the same strings.
-/

namespace Bytes

open List

/-- `sort` and `sort_unstable`. -/
def sort (l : List Bytes) : List Bytes := l.insertionSort (· ≤ ·)

/-- The strings are in ascending order. -/
def Sorted (l : List Bytes) : Prop := l.Pairwise (· ≤ ·)

instance (l : List Bytes) : Decidable (Sorted l) := inferInstanceAs (Decidable (l.Pairwise _))

theorem sort_perm (l : List Bytes) : (sort l).Perm l := perm_insertionSort _ l

theorem sorted_sort (l : List Bytes) : Sorted (sort l) := pairwise_insertionSort _ l

theorem sort_eq_self_iff {l : List Bytes} : sort l = l ↔ Sorted l :=
  ⟨fun h => h ▸ sorted_sort l, Pairwise.insertionSort_eq⟩

theorem mem_sort {a : Bytes} {l : List Bytes} : a ∈ sort l ↔ a ∈ l := (sort_perm l).mem_iff

/-- `windows(2).all(|w| w[0] != w[1])`. -/
def allDifferent : List Bytes → Bool
  | a :: b :: r => a ≠ b && allDifferent (b :: r)
  | _ => true

theorem allDifferent_iff {l : List Bytes} (h : Sorted l) : allDifferent l = true ↔ l.Nodup := by
  induction l with
  | nil => simp [allDifferent]
  | cons a l ih =>
    cases l with
    | nil => simp [allDifferent]
    | cons b r =>
      obtain ⟨ha, hl⟩ := pairwise_cons.1 h
      rw [allDifferent, Bool.and_eq_true, decide_eq_true_eq, ih hl, nodup_cons (a := a)]
      constructor
      · rintro ⟨hab, hnd⟩
        refine ⟨fun hmem => ?_, hnd⟩
        rcases mem_cons.1 hmem with rfl | hmem
        · exact hab rfl
        · exact hab (List.le_antisymm (ha b (.head _)) ((pairwise_cons.1 hl).1 a hmem))
      · rintro ⟨hmem, hnd⟩
        exact ⟨fun hab => hmem (hab ▸ .head _), hnd⟩

theorem allDifferent_sort (l : List Bytes) : allDifferent (sort l) = true ↔ l.Nodup :=
  (allDifferent_iff (sorted_sort l)).trans (sort_perm l).nodup_iff

/-- `dedup`: a string equal to the one behind it is dropped. -/
def dedup : List Bytes → List Bytes
  | a :: b :: r => if a = b then dedup (b :: r) else a :: dedup (b :: r)
  | l => l

theorem mem_dedup {a : Bytes} {l : List Bytes} : a ∈ dedup l ↔ a ∈ l := by
  fun_induction dedup l with
  | case1 b r ih => simp [ih]
  | case2 b c r hne ih => rw [mem_cons, ih, mem_cons (a := a) (b := b)]
  | case3 l h => rfl

end Bytes
