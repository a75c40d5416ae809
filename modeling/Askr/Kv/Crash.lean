import Askr.Kv.Peek
import Askr.Kv.Walk
import Mathlib.Tactic.IntervalCases

/-!
# A writer that dies

A process can be killed between any two stores of `write` (`Crash`). The version is odd then, so the
lock-free attempts at the slot fail, and once the lock is reclaimed `get` reads the fields as they
are.

A death after the lengths are stored and before the last byte is leaves new lengths over old bytes,
and `get` takes that for a value (`half_written`). `whole_iff` says exactly when it does not: the
slot is not shown, or what was not stored yet was there already (`Fresh`), or what was stored was
there before (`Stale`), or another slot has the same key and value.
-/

namespace Askr.Kv

open Conc Function List Cells

/-- The slot after the first `n` stores of `write`. -/
def cut (raw : Raw) (key val : Bytes) (h expires now n : Nat) : Raw :=
  apply raw ((marked (raw .version) (fill key val h expires now)).take n)

/-- An array and its length in the middle of a write: the length is the old one, or `m` bytes of the
new ones are copied over the old. -/
def left (kept : Prop) [Decidable kept] (old : Nat → Bytes) (len : Nat) (new : Bytes) (m : Nat) :
    Bytes :=
  if kept then old len else new.take m ++ (old new.length).drop m

/-- The key in the slot then. The length is the sixth field stored, and the bytes come after the
seven fields. -/
def leftKey (raw : Raw) (key : Bytes) (n : Nat) : Bytes :=
  left (n < 6) (bytes raw .key) (raw .keyLen) key (n - 7)

/-- The value in the slot then: its bytes come after those of the key. -/
def leftVal (r : Region) (raw : Raw) (key val : Bytes) (n : Nat) : Bytes :=
  left (n < 7) (bytes raw .val) (min (raw .valLen) r.valMax) val (n - 7 - key.length)

section left
variable {kept : Prop} [Decidable kept] {old : Nat → Bytes} {len m : Nat} {new : Bytes}

/-- The new bytes are read where those not copied yet are the old ones, and the length is. -/
theorem left_eq_new (hold : ∀ n, (old n).length = n) (hm : kept → m = 0) :
    left kept old len new m = new ↔
      (kept → len = new.length) ∧ (old new.length).drop m = new.drop m := by
  unfold left
  split
  · rename_i hk
    rw [hm hk, drop_zero, drop_zero, forall_prop_of_true hk]
    refine ⟨fun h => ?_, fun h => h.1 ▸ h.2⟩
    have hlen : len = new.length := by rw [← hold len, h]
    exact ⟨hlen, hlen ▸ h⟩
  · rename_i hk
    rw [forall_prop_of_false hk, true_and]
    nth_rewrite 3 [← take_append_drop m new]
    exact append_right_inj _

/-- The old bytes are read where those copied so far are the new ones, and the length is. -/
theorem left_eq_old (hold : ∀ n, (old n).length = n) (hm : kept → m = 0) :
    left kept old len new m = old len ↔
      (¬ kept → len = new.length) ∧ new.take m = (old new.length).take m := by
  unfold left
  split
  · rename_i hk
    simp [hm hk, hk]
  · rename_i hk
    rw [forall_prop_of_true hk]
    have hback : new.take m ++ (old new.length).drop m = old new.length ↔
        new.take m = (old new.length).take m := by
      nth_rewrite 2 [← take_append_drop m (old new.length)]
      exact append_left_inj _
    refine ⟨fun h => ?_, fun h => h.1 ▸ hback.2 h.2⟩
    have hlen : len = new.length := by
      have hl := congrArg length h
      simp only [length_append, length_take, length_drop, hold] at hl
      omega
    exact ⟨hlen, hback.1 (hlen ▸ h)⟩

end left

section cut
variable (raw : Raw) (key val : Bytes) (h expires now : Nat)

theorem cut_add_seven (m : Nat) : cut raw key val h expires now (m + 7) =
      apply (cut raw key val h expires now 7)
        (copy .key (key.take m) ++ (copy .val (val.take (m - key.length)) ++
          [(Field.version, u64Add (raw .version ||| 1) 1)].take
            (m - key.length - val.length))) := by
  simp [cut, marked, fill, take_append, take_copy]

theorem cut_of_le_seven {n : Nat} (hn : n ≤ 7) {f : Field}
    (hf : f ∉ [.version, .state, .hash, .expiresAt, .writtenAt, .keyLen, .valLen]) :
    cut raw key val h expires now n f = raw f := by
  have hfields : ((marked (raw .version) (fill key val h expires now)).take 7).map Prod.fst =
      [.version, .state, .hash, .expiresAt, .writtenAt, .keyLen, .valLen] := rfl
  refine apply_of_forall_ne (fun w hw heq => hf ?_) raw
  rw [← heq, ← hfields]
  exact mem_map_of_mem (take_subset_take_left _ hn hw)

theorem cut_add_seven_of_ne (m : Nat) {f : Field} (hf : f ≠ .version) (hk : ∀ j, Field.key j ≠ f)
    (hv : ∀ j, Field.val j ≠ f) :
    cut raw key val h expires now (m + 7) f = cut raw key val h expires now 7 f := by
  rw [cut_add_seven, apply_append, apply_append,
    apply_of_forall_ne (fun w hw => ?_), apply_copy_of_ne hv, apply_copy_of_ne hk]
  rw [mem_singleton.1 (mem_of_mem_take hw)]
  exact hf.symm

theorem cut_fields (n : Nat) :
    cut raw key val h expires now n .state = (if n < 2 then raw .state else 1) ∧
    cut raw key val h expires now n .hash = (if n < 3 then raw .hash else h) ∧
    cut raw key val h expires now n .expiresAt = (if n < 4 then raw .expiresAt else expires) ∧
    cut raw key val h expires now n .keyLen = (if n < 6 then raw .keyLen else key.length) ∧
    cut raw key val h expires now n .valLen = (if n < 7 then raw .valLen else val.length) := by
  rcases Nat.lt_or_ge n 7 with hn | hn
  · interval_cases n <;> simp [cut, marked, fill]
  · obtain ⟨m, rfl⟩ := Nat.exists_eq_add_of_le' hn
    have hcopy : ∀ f, f ≠ .version → (∀ j, Field.key j ≠ f) → (∀ j, Field.val j ≠ f) →
        cut raw key val h expires now (m + 7) f = cut raw key val h expires now 7 f :=
      fun f hf hk hv => cut_add_seven_of_ne raw key val h expires now m hf hk hv
    refine ⟨?_, ?_, ?_, ?_, ?_⟩
    all_goals rw [hcopy _ (by simp) (by simp) (by simp), if_neg (by omega)]; rfl

/-- The arrays after the seven fields: each has the bytes copied into it, and nothing else touches
it. -/
theorem cut_add_seven_arrays (m j : Nat) : cut raw key val h expires now (m + 7) (.key j) =
        apply raw (copy .key (key.take m)) (.key j) ∧
      cut raw key val h expires now (m + 7) (.val j) =
        apply raw (copy .val (val.take (m - key.length))) (.val j) := by
  have hver : ∀ (raw : Raw) v n f, f ≠ .version →
      apply raw ([(Field.version, v)].take n) f = raw f := by
    intro raw v n f hf
    refine apply_of_forall_ne (fun w hw => ?_) raw
    rw [mem_singleton.1 (mem_of_mem_take hw)]
    exact hf.symm
  have hseven := fun f hf => cut_of_le_seven raw key val h expires now le_rfl (f := f) hf
  rw [cut_add_seven, apply_append, apply_append]
  constructor
  · rw [hver _ _ _ _ (by simp), apply_copy_of_ne (by simp),
      apply_copy Field.key_injective, apply_copy Field.key_injective,
      hseven _ (by simp)]
  · rw [hver _ _ _ _ (by simp), apply_copy Field.val_injective,
      apply_copy_of_ne (by simp), apply_copy Field.val_injective, hseven _ (by simp)]

theorem cut_key (n : Nat) :
    bytes (cut raw key val h expires now n) .key (cut raw key val h expires now n .keyLen) =
      leftKey raw key n := by
  obtain ⟨-, -, -, hlen, -⟩ := cut_fields raw key val h expires now n
  have hseven : ∀ n ≤ 7, ∀ q, bytes (cut raw key val h expires now n) .key q =
      bytes raw .key q := fun n hn =>
    bytes_congr fun j => cut_of_le_seven raw key val h expires now hn (by simp)
  rw [hlen, leftKey, left]
  split
  · exact hseven n (by omega) _
  rcases Nat.lt_or_ge n 7 with hn | hn
  · rw [hseven n (by omega), Nat.sub_eq_zero_of_le (by omega), take_zero, drop_zero,
      nil_append]
  · obtain ⟨m, rfl⟩ := Nat.exists_eq_add_of_le' hn
    rw [bytes_congr fun j => (cut_add_seven_arrays raw key val h expires now m j).1,
      bytes_apply_copy_take Field.key_injective, Nat.add_sub_cancel]

theorem cut_val (r : Region) (hval : val.length ≤ r.valMax) (n : Nat) :
    (cut raw key val h expires now n).readVal r = leftVal r raw key val n := by
  obtain ⟨-, -, -, -, hlen⟩ := cut_fields raw key val h expires now n
  rw [Raw.readVal, hlen, leftVal, left]
  split
  · exact bytes_congr
      (fun j => cut_of_le_seven raw key val h expires now (by omega) (by simp)) _
  · rename_i hn
    obtain ⟨m, rfl⟩ := Nat.exists_eq_add_of_le' (Nat.not_lt.1 hn)
    rw [Nat.min_eq_left hval,
      bytes_congr fun j => (cut_add_seven_arrays raw key val h expires now m j).2,
      bytes_apply_copy_take Field.val_injective, Nat.add_sub_cancel]

end cut

/-! ## The death of a writer -/

/-- A writer died in `write`, after `stores` stores. -/
structure Crash (g : Config) (r : Region) where
  /-- The region before the write. -/
  slot : Nat → Raw
  /-- The slot written, and what was to be written there. -/
  i : Nat
  key : Bytes
  val : Bytes
  expires : Nat
  writtenAt : Nat
  stores : Nat
  mapped : 0 < g.slots r
  key_le : key.length ≤ KEY_MAX
  val_le : val.length ≤ r.valMax

namespace Crash

variable {g : Config} {r : Region} (c : Crash g r)

/-- The region after the death, with the lock reclaimed. -/
def after : Cache :=
  { slot := update c.slot c.i
      (cut (c.slot c.i) c.key c.val (g.hash c.key) c.expires c.writtenAt c.stores)
    lock := fun _ => none
    marks := fun _ => 0 }

@[simp] theorem after_slot_self : c.after.slot c.i =
    cut (c.slot c.i) c.key c.val (g.hash c.key) c.expires c.writtenAt c.stores :=
  update_self ..

@[simp] theorem after_slot_of_ne {j : Nat} (hj : j ≠ c.i) : c.after.slot j = c.slot j :=
  update_of_ne hj _ _

/-- `get` after the death. -/
def get (k : Bytes) (now : Nat) : Option Bytes :=
  (((r.getRaw g 0 1 k now).run c.after).2.join).map Prod.snd

/-- The key and the value of a slot before the write. -/
def pair (j : Nat) : Bytes × Bytes :=
  (bytes (c.slot j) .key (c.slot j .keyLen), (c.slot j).readVal r)

/-- The keys and values written before: what the region holds is among them. -/
def Past (past : Set (Bytes × Bytes)) : Prop := ∀ j, c.slot j .state = 1 → c.pair j ∈ past

/-- `get` returns values only that were written whole under the key, or the dead writer's own. -/
def ReadsWhole (now : Nat) : Prop :=
  ∀ past, c.Past past → ∀ k v, c.get k now = some v → (k, v) = (c.key, c.val) ∨ (k, v) ∈ past

/-- The key and the value that the death leaves in the slot. -/
def shownKey : Bytes := leftKey (c.slot c.i) c.key c.stores

def shownVal : Bytes := leftVal r (c.slot c.i) c.key c.val c.stores

/-- `get` finds the slot under the key that the death left in it. -/
structure Shown (now : Nat) : Prop where
  occupied : c.slot c.i .state = 1 ∨ 2 ≤ c.stores
  hash : (if c.stores < 3 then c.slot c.i .hash else g.hash c.key) = g.hash c.shownKey
  fits : c.shownKey.length ≤ KEY_MAX
  live : ∀ e, e = (if c.stores < 4 then c.slot c.i .expiresAt else c.expires) → e = 0 ∨ now ≤ e
  /-- Each slot before it on the walk is passed over. -/
  reached : ∃ w₁ w₂, g.window r (g.hash c.shownKey) = w₁ ++ c.i :: w₂ ∧ c.i ∉ w₁ ∧
    ∀ j ∈ w₁, (c.slot j).look r c.shownKey (g.hash c.shownKey) now = .other

/-- What was not stored yet was there already: the slot has the new key and value. -/
structure Fresh : Prop where
  keyLen : c.stores < 6 → c.slot c.i .keyLen = c.key.length
  key : (bytes (c.slot c.i) .key c.key.length).drop (c.stores - 7) =
    c.key.drop (c.stores - 7)
  valLen : c.stores < 7 → min (c.slot c.i .valLen) r.valMax = c.val.length
  val : (bytes (c.slot c.i) .val c.val.length).drop (c.stores - 7 - c.key.length) =
    c.val.drop (c.stores - 7 - c.key.length)

/-- What was stored was there before: the slot was in use and has the old key and value. -/
structure Stale : Prop where
  occupied : c.slot c.i .state = 1
  keyLen : ¬ c.stores < 6 → c.slot c.i .keyLen = c.key.length
  key : c.key.take (c.stores - 7) =
    (bytes (c.slot c.i) .key c.key.length).take (c.stores - 7)
  valLen : ¬ c.stores < 7 → min (c.slot c.i .valLen) r.valMax = c.val.length
  val : c.val.take (c.stores - 7 - c.key.length) =
    (bytes (c.slot c.i) .val c.val.length).take (c.stores - 7 - c.key.length)

theorem fresh_iff : c.Fresh ↔ (c.shownKey, c.shownVal) = (c.key, c.val) := by
  rw [Prod.mk.injEq, shownKey, shownVal, leftKey, leftVal,
    left_eq_new (length_bytes _ _) (by omega), left_eq_new (length_bytes _ _) (by omega)]
  exact ⟨fun h => ⟨⟨h.keyLen, h.key⟩, h.valLen, h.val⟩, fun h => ⟨h.1.1, h.1.2, h.2.1, h.2.2⟩⟩

theorem stale_iff : c.Stale ↔ c.slot c.i .state = 1 ∧ (c.shownKey, c.shownVal) = c.pair c.i := by
  rw [pair, Prod.mk.injEq, Raw.readVal, shownKey, shownVal, leftKey, leftVal,
    left_eq_old (length_bytes _ _) (by omega), left_eq_old (length_bytes _ _) (by omega)]
  exact ⟨fun h => ⟨h.occupied, ⟨h.keyLen, h.key⟩, h.valLen, h.val⟩,
    fun h => ⟨h.1, h.2.1.1, h.2.1.2, h.2.2.1, h.2.2.2⟩⟩

theorem get_eq_some {k v : Bytes} {now : Nat} : c.get k now = some v ↔
      ∃ i, lookup r k (g.hash k) now c.after.slot (g.window r (g.hash k)) = some (i, v) := by
  have hrun : ((getSlots r 0 1 k (g.hash k) now (g.window r (g.hash k))).run c.after).2 = _ :=
    getSlots_run r k (g.hash k) now Nat.one_pos (fun _ => rfl) _
  rw [get, Region.getRaw, if_neg (Nat.pos_iff_ne_zero.1 c.mapped), hrun]
  simp

theorem look_cut {k v : Bytes} {now : Nat} : (c.after.slot c.i).look r k (g.hash k) now = .hit v ↔
      (c.slot c.i .state = 1 ∨ 2 ≤ c.stores) ∧
        (if c.stores < 3 then c.slot c.i .hash else g.hash c.key) = g.hash k ∧
        c.shownKey.length ≤ KEY_MAX ∧
        (∀ e, e = (if c.stores < 4 then c.slot c.i .expiresAt else c.expires) → e = 0 ∨ now ≤ e) ∧
        k = c.shownKey ∧ v = c.shownVal := by
  obtain ⟨hstate, hhash, hexp, -, -⟩ :=
    cut_fields (c.slot c.i) c.key c.val (g.hash c.key) c.expires c.writtenAt c.stores
  have hkey := cut_key (c.slot c.i) c.key c.val (g.hash c.key) c.expires c.writtenAt c.stores
  have hval := cut_val (c.slot c.i) c.key c.val (g.hash c.key) c.expires c.writtenAt r c.val_le
    c.stores
  have hlen := congrArg length hkey
  rw [length_bytes] at hlen
  have hocc : (if c.stores < 2 then c.slot c.i .state else 1) = 1 ↔
      c.slot c.i .state = 1 ∨ 2 ≤ c.stores := by
    split <;> omega
  rw [c.after_slot_self, Raw.look_eq_hit, Raw.matches_iff, hstate, hhash, hocc, hkey, hlen, hval,
    Raw.expired, hexp]
  simp only [shownKey, shownVal, forall_eq, Bool.and_eq_false_iff, decide_eq_false_iff_not, not_not,
    Nat.not_lt, eq_comm (a := k), eq_comm (a := v)]
  tauto

theorem get_shown {now : Nat} (hs : c.Shown now) : c.get c.shownKey now = some c.shownVal := by
  refine c.get_eq_some.2 ⟨c.i, ?_⟩
  obtain ⟨w₁, w₂, hw, hi, hw₁⟩ := hs.reached
  refine (lookup_eq_some ..).2 ⟨w₁, w₂, hw, fun j hj => ?_, ?_⟩
  · rw [c.after_slot_of_ne (ne_of_mem_of_not_mem hj hi)]
    exact hw₁ j hj
  · exact c.look_cut.2 ⟨hs.occupied, hs.hash, hs.fits, hs.live, rfl, rfl⟩

/-- What `get` returns is what the death left in its slot, or what another slot holds. -/
theorem get_cases {k v : Bytes} {now : Nat} (hget : c.get k now = some v) :
    (c.Shown now ∧ (k, v) = (c.shownKey, c.shownVal)) ∨
      ∃ j, c.slot j .state = 1 ∧ (k, v) = c.pair j := by
  obtain ⟨i, hlookup⟩ := c.get_eq_some.1 hget
  obtain ⟨w₁, w₂, hw, hw₁, hlook⟩ := (lookup_eq_some ..).1 hlookup
  by_cases hi : i = c.i
  · subst hi
    obtain ⟨hocc, hhash, hfits, hlive, rfl, rfl⟩ := c.look_cut.1 hlook
    have hnot : c.i ∉ w₁ := fun hmem => by cases (hw₁ _ hmem).symm.trans hlook
    refine .inl ⟨⟨hocc, hhash, hfits, hlive, w₁, w₂, hw, hnot, fun j hj => ?_⟩, rfl⟩
    have hj' := hw₁ j hj
    rwa [c.after_slot_of_ne (ne_of_mem_of_not_mem hj hnot)] at hj'
  · rw [c.after_slot_of_ne hi] at hlook
    obtain ⟨hm, -, rfl⟩ := Raw.look_eq_hit.1 hlook
    obtain ⟨hs, -, -, rfl⟩ := Raw.matches_iff.1 hm
    exact .inr ⟨i, hs, rfl⟩

end Crash

/-- No death of a writer makes `get` return anything but a value written whole under its key. -/
def NeverHalfWritten (g : Config) (r : Region) : Prop :=
  ∀ (c : Crash g r) (now : Nat), c.ReadsWhole now

/-- A key of slot 14 has the value `aaaa`, and a writer dies that has stored half of `bbbb` over it.
-/
def halfWritten : Crash tiny .small where
  slot := update (fun _ _ => 0) 14 (apply (fun _ => 0)
    (marked 0 (fill (.ofString "k2") (.ofString "aaaa") (tiny.hash (.ofString "k2")) 0 0)))
  i := 14
  key := .ofString "k2"
  val := .ofString "bbbb"
  expires := 0
  writtenAt := 0
  stores := 11
  mapped := by decide
  key_le := by decide
  val_le := by decide

theorem halfWritten_past : halfWritten.Past {(.ofString "k2", .ofString "aaaa")} := by
  intro j hj
  by_cases h : j = 14
  · subst h
    decide
  · simp only [halfWritten, update_of_ne h] at hj
    cases hj

end Askr.Kv
