import Askr.Data.Bytes
import Askr.Data.Probe

/-!
# Fixed-slot tables in shared memory

What the tables of this server share: a slot is empty, occupied or a tombstone, keys are placed by a
64-bit hash, and a key is looked for along a window of slots that starts at its home slot. Machine
words are natural numbers; sums that the source lets wrap are `u64Add`, the ones it saturates are
`satAdd` and `satMul`.
-/

namespace Askr

/-- The `state` word of a slot: `0`, `1` and `2`. -/
inductive SlotState where
  | empty
  | occupied
  | tombstone
deriving DecidableEq, Repr

/-- A 64-bit hash of byte strings (`DefaultHasher`). -/
abbrev Hasher := Bytes → UInt64

/-- The number of `u64` values. -/
def U64 : Nat := 18446744073709551616

/-- `+` on `u64` in a release build. -/
def u64Add (a b : Nat) : Nat := (a + b) % U64

/-- `u64::saturating_add`. -/
def satAdd (a b : Nat) : Nat := min (a + b) (U64 - 1)

/-- `u64::saturating_mul`. -/
def satMul (a b : Nat) : Nat := min (a * b) (U64 - 1)

/-- The `probe` slots from the home slot of hash `h`:
`(h as usize).wrapping_add(i) % slots` for `i` in `0..probe`. -/
def window (probe slots h : Nat) : List Nat :=
  (List.range probe).map fun i => u64Add h i % slots

theorem mem_window {probe slots h i : Nat} (hs : 0 < slots) (hi : i ∈ window probe slots h) :
    i < slots := by
  obtain ⟨n, -, rfl⟩ := List.mem_map.1 hi
  exact Nat.mod_lt _ hs

theorem window_succ (probe slots h : Nat) :
    ∃ w, window (probe + 1) slots h = u64Add h 0 % slots :: w := by
  rw [window, List.range_succ_eq_map, List.map_cons]
  exact ⟨_, rfl⟩

end Askr
