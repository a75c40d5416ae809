import Askr.Data.Cells
import Askr.Kv.Table

/-!
# The memory of a slot

`Askr.Kv.Table` has one value for a slot. In the shared mapping a slot is an `Entry<V>`: a version
counter, the fields and two byte arrays, written one store at a time (`Raw`). `fill` are the stores
of `write` in their order, and `marked` puts the version marker around them (`Writing`). `Raw.entry`
reads the slot of the table off the memory, and the stores of `write`, `mark_state` and
`mark_expires` are what the table says these functions do (`entry_write`, `entry_bury`,
`entry_markExpires`). Bytes behind the two lengths are left over from earlier writes.
-/

namespace Askr.Kv

open Function Cells

/-- The fields of an `Entry<V>`, its lock apart, and the bytes of its arrays. -/
inductive Field where
  | version
  | state
  | hash
  | expiresAt
  | writtenAt
  | keyLen
  | valLen
  | key (j : Nat)
  | val (j : Nat)
deriving DecidableEq

abbrev Raw := Field → Nat

theorem Field.key_injective : Field.key.Injective := fun _ _ h => Field.key.inj h

theorem Field.val_injective : Field.val.Injective := fun _ _ h => Field.val.inj h

/-! ## Stores -/

/-- The stores made while a `Writing` lives: the version is forced odd first, and is one more when
the guard is dropped. -/
def marked (version : Nat) (ws : List (Field × Nat)) : List (Field × Nat) :=
  (.version, version ||| 1) :: (ws ++ [(.version, u64Add (version ||| 1) 1)])

/-- The stores of `write` between the two markers. -/
def fill (key val : Bytes) (h expires now : Nat) : List (Field × Nat) :=
  [(.state, 1), (.hash, h), (.expiresAt, expires), (.writtenAt, now), (.keyLen, key.length),
    (.valLen, val.length)] ++ (copy .key key ++ copy .val val)

/-! ## Reads -/

def Raw.matches (raw : Raw) (key : Bytes) (h : Nat) : Bool :=
  raw .state = 1 && raw .hash = h && (raw .keyLen = key.length && raw .keyLen ≤ KEY_MAX) &&
    bytes raw .key (raw .keyLen) = key

def Raw.expired (raw : Raw) (now : Nat) : Bool := raw .expiresAt ≠ 0 && raw .expiresAt < now

def Raw.readVal (r : Region) (raw : Raw) : Bytes :=
  bytes raw .val (min (raw .valLen) r.valMax)

/-- What a look at a slot finds: `Peek`, without `Torn`. -/
inductive Look where
  | chainEnd
  | other
  | expired
  | hit (v : Bytes)
deriving DecidableEq

/-- What a reader that has the slot to itself finds. -/
def Raw.look (r : Region) (raw : Raw) (key : Bytes) (h now : Nat) : Look :=
  if raw.matches key h then if raw.expired now then .expired else .hit (raw.readVal r)
  else if raw .state = 0 then .chainEnd
  else .other

theorem Raw.look_eq_hit {r : Region} {raw : Raw} {key v : Bytes} {h now : Nat} :
    raw.look r key h now = .hit v ↔
      raw.matches key h = true ∧ raw.expired now = false ∧ raw.readVal r = v := by
  rw [look]
  split
  · rename_i hm
    split
    · rename_i he
      simp [he]
    · rename_i he
      simp [hm, Bool.eq_false_iff.2 he]
  · rename_i hm
    split <;> simp [hm]

theorem Raw.matches_iff {raw : Raw} {key : Bytes} {h : Nat} :
    raw.matches key h = true ↔ raw .state = 1 ∧ raw .hash = h ∧ raw .keyLen ≤ KEY_MAX ∧
      bytes raw .key (raw .keyLen) = key := by
  simp only [Raw.matches, Bool.and_eq_true, decide_eq_true_eq]
  constructor
  · rintro ⟨⟨⟨hs, hh⟩, -, hk⟩, hb⟩
    exact ⟨hs, hh, hk, hb⟩
  · rintro ⟨hs, hh, hk, hb⟩
    exact ⟨⟨⟨hs, hh⟩, by rw [← hb, length_bytes], hk⟩, hb⟩

/-! ## The slot of the table -/

def stateOf : Nat → SlotState
  | 0 => .empty
  | 1 => .occupied
  | _ => .tombstone

theorem stateOf_eq_occupied {n : Nat} : stateOf n = .occupied ↔ n = 1 := by
  rcases n with _ | _ | n <;> simp [stateOf]

theorem stateOf_eq_empty {n : Nat} : stateOf n = .empty ↔ n = 0 := by
  rcases n with _ | _ | n <;> simp [stateOf]

/-- The slot that the memory of a slot stands for. -/
def Raw.entry (r : Region) (raw : Raw) : Entry :=
  { state := stateOf (raw .state), hash := raw .hash, expiresAt := raw .expiresAt,
    writtenAt := raw .writtenAt, key := bytes raw .key (raw .keyLen), val := raw.readVal r }

variable (r : Region) (raw : Raw)

@[simp] theorem Raw.entry_matches (key : Bytes) (h : Nat) :
    (raw.entry r).matches key h = raw.matches key h := by
  rw [Bool.eq_iff_iff, Raw.matches_iff]
  simp only [Entry.matches, Bool.and_eq_true, decide_eq_true_eq]
  simp only [entry, stateOf_eq_occupied, length_bytes, and_assoc]

@[simp] theorem Raw.entry_expired (now : Nat) : (raw.entry r).expired now = raw.expired now := rfl

theorem fill_spec (raw : Raw) (key val : Bytes) (h expires now : Nat) :
    let raw' := apply raw (fill key val h expires now)
    raw' .version = raw .version ∧ raw' .state = 1 ∧ raw' .hash = h ∧ raw' .expiresAt = expires ∧
      raw' .writtenAt = now ∧ raw' .keyLen = key.length ∧ raw' .valLen = val.length ∧
      bytes raw' .key key.length = key ∧ bytes raw' .val val.length = val := by
  have hfield : ∀ (raw : Raw) f, (∀ j, Field.key j ≠ f) → (∀ j, Field.val j ≠ f) →
      apply raw (copy .key key ++ copy .val val) f = raw f := by
    intro raw f hk hv
    rw [apply_append, apply_copy_of_ne hv, apply_copy_of_ne hk]
  have hkey : ∀ raw : Raw, bytes
      (apply raw (copy .key key ++ copy .val val)) .key key.length = key := by
    intro raw
    rw [apply_append,
      bytes_congr fun j => apply_copy_of_ne (by simp) _ val,
      bytes_apply_copy_self Field.key_injective]
  have hval : ∀ raw : Raw, bytes
      (apply raw (copy .key key ++ copy .val val)) .val val.length = val := by
    intro raw
    rw [apply_append, bytes_apply_copy_self Field.val_injective]
  rw [fill, apply_append]
  refine ⟨?_, ?_, ?_, ?_, ?_, ?_, ?_, hkey _, hval _⟩
  all_goals rw [hfield _ _ (by simp) (by simp)]; simp

theorem apply_marked (v : Nat) (ws : List (Field × Nat)) : apply raw (marked v ws) =
      update (apply raw ws) .version (u64Add (v ||| 1) 1) := by
  rw [marked, apply_cons, apply_append, apply_cons, apply_nil]
  funext f
  by_cases hf : f = .version
  · rw [hf, update_self, update_self]
  · rw [update_of_ne hf, update_of_ne hf, apply_update_of_ne hf]

@[simp] theorem Raw.entry_update_version (v : Nat) :
    Raw.entry r (update raw .version v) = raw.entry r := by
  have hkey : ∀ n, bytes (update raw Field.version v) .key n =
      bytes raw .key n :=
    bytes_congr fun j => update_of_ne (by simp) _ _
  have hval : ∀ n, bytes (update raw Field.version v) .val n =
      bytes raw .val n :=
    bytes_congr fun j => update_of_ne (by simp) _ _
  simp [entry, readVal, hkey, hval]

theorem Raw.entry_apply_update_version (v : Nat) (ws : List (Field × Nat)) :
    Raw.entry r (apply (update raw .version v) ws) = Raw.entry r (apply raw ws) := by
  have heq : apply (update raw .version v) ws =
      update (apply raw ws) .version
        (apply (update raw .version v) ws .version) := by
    funext f
    by_cases hf : f = .version
    · rw [hf, update_self]
    · rw [update_of_ne hf, apply_update_of_ne hf]
  rw [heq, Raw.entry_update_version]

theorem entry_fill {key val : Bytes} (h expires now : Nat) (hval : val.length ≤ r.valMax) :
    Raw.entry r (apply raw (fill key val h expires now)) =
      { state := .occupied, hash := h, expiresAt := expires, writtenAt := now, key, val } := by
  obtain ⟨-, hs, hh, he, hw, hk, hv, hkb, hvb⟩ := fill_spec raw key val h expires now
  rw [Raw.entry, Raw.readVal, hs, hh, he, hw, hk, hv, hkb, Nat.min_eq_left hval, hvb]
  rfl

theorem entry_state (n : Nat) :
    Raw.entry r (apply raw [(.state, n)]) = { raw.entry r with state := stateOf n } := by
  simp [Raw.entry, Raw.readVal, bytes]

theorem entry_expiresAt (expires : Nat) : Raw.entry r (apply raw [(.expiresAt, expires)]) =
      { raw.entry r with expiresAt := expires } := by
  simp [Raw.entry, Raw.readVal, bytes]

theorem entry_write (r : Region) (raw : Raw) (v : Nat) {key val : Bytes} (h expires now : Nat)
    (hval : val.length ≤ r.valMax) :
    Raw.entry r (apply raw (marked v (fill key val h expires now))) =
      { state := .occupied, hash := h, expiresAt := expires, writtenAt := now, key, val } := by
  rw [apply_marked, Raw.entry_update_version, entry_fill r raw h expires now hval]

theorem entry_bury (r : Region) (raw : Raw) (v : Nat) :
    Raw.entry r (apply raw (marked v [(.state, 2)])) =
      { raw.entry r with state := .tombstone } := by
  rw [apply_marked, Raw.entry_update_version, entry_state]
  rfl

theorem entry_markExpires (r : Region) (raw : Raw) (v expires : Nat) :
    Raw.entry r (apply raw (marked v [(.expiresAt, expires)])) =
      { raw.entry r with expiresAt := expires } := by
  rw [apply_marked, Raw.entry_update_version, entry_expiresAt]

end Askr.Kv
