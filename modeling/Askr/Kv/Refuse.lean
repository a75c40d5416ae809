import Askr.Kv.Route
import Askr.Kv.Seq

/-!
# A `set` that fails

`set` returns false for a key or a value that is too long, and when the region of the value is not
mapped (`set_fails_iff`). In the last case it has cleared the key from the other region by then. The
tombstones it leaves are in slots that held the key, so another key is found as before
(`Cleared.get_of_ne`); the key itself is found no more. So a failed `set` changes nothing exactly
when the key was not to be found, unless it was refused for its lengths.

Nothing here depends on what is in the table.
-/

namespace Askr.Kv

open Conc Prog List Bytes

variable {g : Config} {r : Region} {key : Bytes} {s s' : Mem}

/-! ## When `set` fails -/

theorem tombstoneOthers_true (r : Region) (key : Bytes) (h keep : Nat) (w : List Nat) (s : Mem) :
    ((tombstoneOthers r key h keep w).run s).2 = true := by
  induction w generalizing s with
  | nil => rfl
  | cons i w ih =>
    rw [tombstoneOthers]
    split
    · exact ih s
    · rw [run_atom]
      split
      · rfl
      · split
        · exact ih _
        · exact ih _

theorem setScan_true (g : Config) (r : Region) (key val : Bytes) (h expires now : Nat)
    (w : List Nat) (a : SetAcc) (s : Mem) :
    ((setScan g r key val h expires now w a).run s).2 = true := by
  induction w generalizing a with
  | nil => exact tombstoneOthers_true r key h _ _ _
  | cons i w ih =>
    rw [setScan, run_atom]
    split
    · rfl
    · simp only
      split
      · exact tombstoneOthers_true r key h _ _ _
      · exact ih _

theorem set_fails_iff {val : Bytes} {ttl : Nat} : ((set g key val ttl).run s).2 = false ↔
      KEY_MAX < key.length ∨ VAL_LARGE < val.length ∨ g.slots (home val) = 0 := by
  by_cases hk : KEY_MAX < key.length
  · simp [set, hk]
  by_cases hv : VAL_LARGE < val.length
  · have hs : ¬ val.length ≤ VAL_SMALL := fun h => absurd (Nat.lt_of_lt_of_le hv h) (by decide)
    simp [set, hk, hv, hs, Nat.not_le.2 hv]
  rw [set_eq (by omega) (by omega), run_bind, Region.set]
  by_cases hslots : g.slots (home val) = 0
  · simp [hslots]
  · have hval := length_le_valMax (Nat.not_lt.1 hv)
    rw [if_neg hslots, if_neg (by omega), run_read, setScan_true]
    simp [hk, hv, hslots]

/-! ## What clearing a region leaves -/

/-- The key was cleared from the region: its slots are tombstones, as far as its walk goes. -/
structure Cleared (g : Config) (r : Region) (key : Bytes) (s s' : Mem) : Prop where
  clock : s'.nowMs = s.nowMs
  other : ∀ r' ≠ r, s'.entry r' = s.entry r'
  slot : ∀ i, s'.entry r i = s.entry r i ∨ (s.entry r i).matches key (g.hash key) = true ∧
    s'.entry r i = { s.entry r i with state := .tombstone }

theorem Cleared.refl (g : Config) (r : Region) (key : Bytes) (s : Mem) : Cleared g r key s s :=
  ⟨rfl, fun _ _ => rfl, fun _ => .inl rfl⟩

theorem Cleared.bury {i : Nat} (hm : (s.entry r i).matches key (g.hash key) = true)
    (h : Cleared g r key (s.bury r i) s') : Cleared g r key s s' := by
  refine ⟨h.clock, fun r' hr => (h.other r' hr).trans (s.put_region _ _ _ hr), fun j => ?_⟩
  have hslot := h.slot j
  by_cases hji : j = i
  · subst hji
    rw [Mem.bury, Mem.put_self] at hslot
    rcases hslot with hslot | ⟨hm', -⟩
    · exact .inr ⟨hm, hslot⟩
    · simp [Entry.matches] at hm'
  · rwa [Mem.bury, Mem.put_ne _ _ _ _ hji] at hslot

theorem deleteScan_clears (g : Config) (r : Region) (key : Bytes) (w : List Nat) (found : Bool)
    (s : Mem) : Cleared g r key s ((deleteScan r key (g.hash key) w found).run s).1 ∧
      ∀ i, w.find? (stops r key (g.hash key)
          ((deleteScan r key (g.hash key) w found).run s).1) = some i →
        (((deleteScan r key (g.hash key) w found).run s).1.entry r i).matches key (g.hash key) =
          false := by
  induction w generalizing found s with
  | nil => exact ⟨.refl g r key s, fun i h => by cases h⟩
  | cons i w ih =>
    rw [deleteScan, run_atom]
    by_cases hempty : (s.entry r i).state = .empty
    · rw [if_pos hempty]
      refine ⟨.refl g r key s, fun j hj => ?_⟩
      rw [run_ret, find?_cons_of_pos (by simp [stops, hempty])] at hj
      cases hj
      simp [Entry.matches, hempty]
    · rw [if_neg hempty]
      by_cases hm : (s.entry r i).matches key (g.hash key) = true
      · rw [if_pos hm]
        obtain ⟨hc, hend⟩ := ih true (s.bury r i)
        refine ⟨hc.bury hm, fun j hj => hend j ?_⟩
        have hpast : stops r key (g.hash key)
            ((deleteScan r key (g.hash key) w true).run (s.bury r i)).1 i = false := by
          have hslot := hc.slot i
          rw [Mem.bury, Mem.put_self] at hslot
          rcases hslot with hslot | ⟨hm', -⟩
          · rw [stops, Mem.bury, hslot]
            simp [Entry.matches]
          · simp [Entry.matches] at hm'
        rwa [find?_cons_of_neg (by simp [hpast])] at hj
      · rw [if_neg hm]
        obtain ⟨hc, hend⟩ := ih found s
        refine ⟨hc, fun j hj => hend j ?_⟩
        have hpast : stops r key (g.hash key)
            ((deleteScan r key (g.hash key) w found).run s).1 i = false := by
          rw [stops, (hc.slot i).resolve_right fun h => hm h.1]
          simp [hm, hempty]
        rwa [find?_cons_of_neg (by simp [hpast])] at hj

/-! ## Lookups before and after -/

theorem Region.get_congr (he : s'.entry r = s.entry r) (hnow : s'.nowMs = s.nowMs) (k : Bytes) :
    ((r.get g k (g.hash k)).run s').2 = ((r.get g k (g.hash k)).run s).2 := by
  have hstops : stops r k (g.hash k) s' = stops r k (g.hash k) s := by
    funext i
    rw [stops, stops, he]
  rw [Region.get]
  split
  · rfl
  · rw [run_read, run_read, getScan_run, getScan_run, hstops, he, Mem.nowSecs, Mem.nowSecs, hnow]
    split
    · rfl
    · split
      · split <;> rfl
      · rfl

theorem get_or {k : Bytes} (hk : k.length ≤ KEY_MAX) (s : Mem) :
    ((get g k).run s).2 = ((Region.small.get g k (g.hash k)).run s).2.or
      ((Region.large.get g k (g.hash k)).run s).2 := by
  have hguar : (Region.small.get g k (g.hash k)).Guar fun s s' =>
      s'.entry .large = s.entry .large ∧ s'.nowMs = s.nowMs := by
    refine (Region.get_buries g .small k (g.hash k)).mono fun s s' h => ?_
    rcases h with rfl | ⟨j, rfl⟩
    exacts [⟨rfl, rfl⟩, ⟨s.put_region _ _ _ (by decide), rfl⟩]
  obtain ⟨he, hnow⟩ := hguar.run (fun _ => ⟨rfl, rfl⟩)
    (fun {_ _ _} h h' => ⟨h'.1.trans h.1, h'.2.trans h.2⟩) s
  rw [get, if_neg (Nat.not_lt.2 hk), run_bind]
  cases hsmall : ((Region.small.get g k (g.hash k)).run s).2 with
  | some v => rfl
  | none => exact Region.get_congr he hnow k

theorem Cleared.get_of_ne (h : Cleared g r key s s') {k : Bytes} (hne : k ≠ key) (r' : Region) :
    ((r'.get g k (g.hash k)).run s').2 = ((r'.get g k (g.hash k)).run s).2 := by
  by_cases hr : r' = r
  swap
  · exact Region.get_congr (h.other r' hr) h.clock k
  subst hr
  have hother : ∀ i, stops r' k (g.hash k) s i = true → s'.entry r' i = s.entry r' i := by
    intro i hi
    refine (h.slot i).resolve_right fun hbury => ?_
    obtain ⟨hocc, -, -, hkey⟩ := Entry.matches_iff.1 hbury.1
    simp only [stops, hocc, reduceCtorEq, decide_false, Bool.or_false] at hi
    exact hne ((Entry.matches_iff.1 hi).2.2.2.symm.trans hkey)
  have hstops : stops r' k (g.hash k) s' = stops r' k (g.hash k) s := by
    funext i
    rcases h.slot i with hi | ⟨hm, hi⟩
    · rw [stops, stops, hi]
    · have hno : stops r' k (g.hash k) s i = false := by
        refine Bool.eq_false_iff.2 fun hstop => ?_
        rw [hother i hstop] at hi
        have hocc := (Entry.matches_iff.1 hm).1
        rw [hi] at hocc
        cases hocc
      rw [hno, stops, hi]
      simp [Entry.matches]
  rw [Region.get]
  split
  · rfl
  · rw [run_read, run_read, getScan_run, getScan_run, hstops, Mem.nowSecs, Mem.nowSecs, h.clock]
    split
    · rfl
    · rename_i i hf
      rw [hother i (find?_some hf)]
      split
      · split <;> rfl
      · rfl

theorem Region.delete_clears (g : Config) (r : Region) (key : Bytes) (s : Mem) :
    Cleared g r key s ((r.delete g key (g.hash key)).run s).1 ∧
      ((r.get g key (g.hash key)).run ((r.delete g key (g.hash key)).run s).1).2 = none := by
  rw [Region.get, Region.delete]
  split
  · exact ⟨.refl g r key s, rfl⟩
  · obtain ⟨hc, hend⟩ := deleteScan_clears g r key (g.window r (g.hash key)) false s
    refine ⟨hc, ?_⟩
    rw [run_read, getScan_run]
    split
    · rfl
    · rename_i i hf
      rw [if_neg (by simp [hend i hf])]

/-! ## A failed `set` -/

theorem set_of_long {val : Bytes} {ttl : Nat} (h : KEY_MAX < key.length ∨ VAL_LARGE < val.length) :
    (set g key val ttl).run s = (s, false) := by
  rw [set]
  split
  · rfl
  · rename_i hk
    have hv : VAL_LARGE < val.length := h.resolve_left hk
    have hs : VAL_SMALL < val.length := Nat.lt_of_le_of_lt (by decide) hv
    rw [if_neg (Nat.not_le.2 hs), if_neg (Nat.not_le.2 hv), run_ret]

theorem get_home_unmapped {val : Bytes} (hslots : g.slots (home val) = 0)
    (hk : key.length ≤ KEY_MAX) (s : Mem) :
    ((get g key).run s).2 = (((home val).other.get g key (g.hash key)).run s).2 := by
  have hnone : ((home val).get g key (g.hash key)).run s = (s, none) := by
    rw [Region.get, if_pos hslots]
    rfl
  rw [get_or hk]
  cases hhome : home val with
  | small =>
    rw [hhome] at hnone
    rw [hnone]
    rfl
  | large =>
    rw [hhome] at hnone
    rw [hnone, Option.or_none]
    rfl

theorem set_unmapped (g : Config) {key val : Bytes} (hk : key.length ≤ KEY_MAX)
    (hv : val.length ≤ VAL_LARGE) (hslots : g.slots (home val) = 0) (ttl : Nat) (s : Mem) :
    Cleared g (home val).other key s ((set g key val ttl).run s).1 ∧
      ((get g key).run ((set g key val ttl).run s).1).2 = none := by
  obtain ⟨hc, hnone⟩ := Region.delete_clears g (home val).other key s
  have hrun : ((set g key val ttl).run s).1 =
      (((home val).other.delete g key (g.hash key)).run s).1 := by
    rw [set_eq hk hv, run_bind, Region.set, if_pos hslots]
    rfl
  rw [hrun]
  exact ⟨hc, (get_home_unmapped hslots hk _).trans hnone⟩

/-- **A failed `set` changes what another key has in no case; and it changes nothing exactly when it
was refused for a length or the key was not to be found before.** -/
theorem failed_set_iff {val : Bytes} {ttl : Nat} (hfail : ((set g key val ttl).run s).2 = false) :
    (∀ k ≠ key, ((get g k).run ((set g key val ttl).run s).1).2 = ((get g k).run s).2) ∧
    ((∀ k, ((get g k).run ((set g key val ttl).run s).1).2 = ((get g k).run s).2) ↔
      KEY_MAX < key.length ∨ VAL_LARGE < val.length ∨ ((get g key).run s).2 = none) := by
  by_cases hlong : KEY_MAX < key.length ∨ VAL_LARGE < val.length
  · rw [set_of_long hlong]
    exact ⟨fun _ _ => rfl, iff_of_true (fun _ => rfl) (hlong.imp_right .inl)⟩
  obtain ⟨hk, hv⟩ := not_or.1 hlong
  have hslots : g.slots (home val) = 0 := ((set_fails_iff.1 hfail).resolve_left hk).resolve_left hv
  obtain ⟨hc, hkey⟩ := set_unmapped g (Nat.not_lt.1 hk) (Nat.not_lt.1 hv) hslots ttl s
  have hothers : ∀ k ≠ key,
      ((get g k).run ((set g key val ttl).run s).1).2 = ((get g k).run s).2 := by
    intro k hne
    by_cases hlen : k.length ≤ KEY_MAX
    · rw [get_or hlen, get_or hlen, hc.get_of_ne hne, hc.get_of_ne hne]
    · rw [get, if_pos (Nat.not_le.1 hlen)]
      rfl
  refine ⟨hothers, fun h => .inr (.inr ((h key).symm.trans hkey)), fun h k => ?_⟩
  by_cases hne : k = key
  · subst hne
    exact hkey.trans ((h.resolve_left hk).resolve_left hv).symm
  · exact hothers k hne

/-- A value that only the large region takes. -/
def bigValue : Bytes := List.replicate (VAL_SMALL + 1) 0

theorem home_bigValue : home bigValue = .large := by
  rw [home, bigValue, length_replicate, if_neg (by omega)]

theorem bigValue_length_le : bigValue.length ≤ VAL_LARGE := by
  rw [bigValue, length_replicate]
  decide

def smallOnly : Config := .init Ns.bytesHash 16 0

theorem home_unmapped : smallOnly.slots (home bigValue) = 0 := by
  rw [home_bigValue]
  rfl

theorem failed_set_of_absent : ((get smallOnly (ofString "k")).run
        ((set smallOnly (ofString "k") bigValue 0).run (.init 0)).1).2 =
      ((get smallOnly (ofString "k")).run (.init 0)).2 :=
  (failed_set_iff (set_fails_iff.2 (.inr (.inr home_unmapped)))).2.2
    (.inr (.inr (by decide))) _

/-- A failed `set` changes nothing. -/
def FailedSetNeutral : Prop :=
  ∀ (slots largeSlots now : Nat) (ops : List Op) (key val : Bytes) (ttl : Nat),
    let g := Config.init Ns.bytesHash slots largeSlots
    let s := ran g now ops
    ((set g key val ttl).run s).2 = false →
      ∀ k, ((get g k).run ((set g key val ttl).run s).1).2 = ((get g k).run s).2

def heldRun : List Op := [.call ⟨none, ofString "k", .set (ofString "v") 0⟩]

/-- **A failed `set` loses the value.** The key holds a small value, and a large one is set where
there is no large region. -/
theorem failed_set_loses_value : ¬ FailedSetNeutral := by
  intro h
  have hfail : ((set smallOnly (ofString "k") bigValue 0).run (ran smallOnly 0 heldRun)).2 =
      false := set_fails_iff.2 (.inr (.inr home_unmapped))
  have hsame := h 16 0 0 heldRun (ofString "k") bigValue 0 hfail (ofString "k")
  have hk : (ofString "k").length ≤ KEY_MAX := by decide
  have hlost :=
    (set_unmapped smallOnly hk bigValue_length_le home_unmapped 0 (ran smallOnly 0 heldRun)).2
  have hheld : ((get smallOnly (ofString "k")).run (ran smallOnly 0 heldRun)).2 =
      some (ofString "v") := by decide
  exact absurd (hheld.symm.trans (hsame.symm.trans hlost)) (by decide)

end Askr.Kv
