import Askr.Kv.Walk

/-!
# One region, one call at a time

What the functions of a region do when nobody else runs. The table is sound (`Sound`) when every
entry is in the window of its key with no empty slot in front of it, and no key has two. Where a key
is then decides what each function does: `Region.get_run` and its companions say so, one equation
each, and each of them leaves the table as it was or changes one slot: it writes the key where its
walk gets to (`Place`), makes a tombstone of its slot, or moves its deadline. So soundness is kept
(`Sound.write`, `Sound.bury`, `Sound.markExpires`).
-/

namespace Askr.Kv

open Conc Prog Probe List Option

section
variable (g : Config) (r : Region)

/-- Slot `i` holds the key. -/
def HasAt (key : Bytes) (s : Mem) (i : Nat) : Prop := (s.entry r i).matches key (g.hash key) = true

/-- A slot that the walk of the key gets to: no slot in front of it is empty. -/
def Place (key : Bytes) (s : Mem) (i : Nat) : Prop :=
  i ∈ g.window r (g.hash key) ∧
    ∀ j ∈ passed (g.window r (g.hash key)) i, (s.entry r j).state ≠ .empty

structure Sound (s : Mem) : Prop where
  /-- An entry is of a key that is in the slot. -/
  own : ∀ i, (s.entry r i).state = .occupied → HasAt g r (s.entry r i).key s i
  /-- The walk of a key gets to its slot. -/
  place : ∀ key i, HasAt g r key s i → g.slots r ≠ 0 ∧ Place g r key s i
  /-- A key has one slot. -/
  unique : ∀ key i j, HasAt g r key s i → HasAt g r key s j → i = j

/-- Where the key is. -/
def At (key : Bytes) (s : Mem) : Option Nat → Prop
  | none => ∀ i, ¬ HasAt g r key s i
  | some i => HasAt g r key s i

end

instance (g : Config) (r : Region) (k : Bytes) (s : Mem) (i : Nat) : Decidable (HasAt g r k s i) :=
  inferInstanceAs (Decidable (_ = true))

variable {g : Config} {r : Region} {key : Bytes} {s : Mem} {o : Option Nat}

theorem exists_at (g : Config) (r : Region) (key : Bytes) (s : Mem) : ∃ o, At g r key s o := by
  by_cases h : ∃ i, HasAt g r key s i
  · obtain ⟨i, hi⟩ := h
    exact ⟨some i, hi⟩
  · exact ⟨none, fun i hi => h ⟨i, hi⟩⟩

theorem HasAt.occupied {i : Nat} (h : HasAt g r key s i) : (s.entry r i).state = .occupied :=
  (Entry.matches_iff.1 h).1

theorem HasAt.length_le {i : Nat} (h : HasAt g r key s i) : key.length ≤ KEY_MAX := by
  obtain ⟨-, -, hle, rfl⟩ := Entry.matches_iff.1 h
  exact hle

theorem sound_init (g : Config) (r : Region) (now : Nat) : Sound g r (.init now) := by
  refine ⟨fun i hi => ?_, fun key i hi => ?_, fun key i j hi => ?_⟩
  · simp [Mem.init, Entry.zeroed] at hi
  · simp [HasAt, Entry.matches, Mem.init, Entry.zeroed] at hi
  · simp [HasAt, Entry.matches, Mem.init, Entry.zeroed] at hi

theorem Sound.find?_stops (hs : Sound g r s) {i : Nat} (hi : HasAt g r key s i) :
    (g.window r (g.hash key)).find? (stops r key (g.hash key) s) = some i := by
  obtain ⟨hmem, hpre⟩ := (hs.place key i hi).2
  refine find?_eq_some_iff.2 ⟨hmem, by simp [stops, show _ = true from hi], fun j hj hstop => ?_⟩
  simp only [stops, Bool.or_eq_true, decide_eq_true_eq] at hstop
  rcases hstop with hm | hempty
  · obtain rfl := hs.unique key j i hm hi
    exact not_mem_passed hj
  · exact hpre j hj hempty

/-! ## Writing keeps the region sound -/

/-- A slot is written with the key where its walk gets to, and the key is nowhere else. -/
theorem Sound.write (hs : Sound g r s) (hslots : g.slots r ≠ 0) (hlen : key.length ≤ KEY_MAX)
    {i : Nat} (hplace : Place g r key s i) (hno : ∀ j, HasAt g r key s j → j = i) (val : Bytes)
    (expires : Nat) : Sound g r (s.write r i key val (g.hash key) expires) := by
  have hstate : ∀ j, (s.entry r j).state ≠ .empty →
      ((s.write r i key val (g.hash key) expires).entry r j).state ≠ .empty := by
    intro j hj
    by_cases hji : j = i
    · simp [Mem.write, hji]
    · simpa [Mem.write, hji] using hj
  have hplace' : ∀ {k j}, Place g r k s j →
      Place g r k (s.write r i key val (g.hash key) expires) j :=
    fun h => ⟨h.1, fun x hx => hstate x (h.2 x hx)⟩
  have hhas : ∀ {k j}, HasAt g r k (s.write r i key val (g.hash key) expires) j →
      (j = i ∧ k = key) ∨ (j ≠ i ∧ HasAt g r k s j) := by
    intro k j hj
    by_cases hji : j = i
    · subst hji
      have := (Entry.matches_iff.1 hj).2.2.2
      simp only [Mem.write, Mem.put_self] at this
      exact .inl ⟨rfl, this.symm⟩
    · exact .inr ⟨hji, by simpa [HasAt, Mem.write, hji] using hj⟩
  refine ⟨fun j hj => ?_, fun k j hj => ?_, fun k j j' hj hj' => ?_⟩
  · by_cases hji : j = i
    · subst hji
      simp [HasAt, Mem.write, Entry.matches, hlen]
    · have hocc : (s.entry r j).state = .occupied := by simpa [Mem.write, hji] using hj
      simpa [HasAt, Mem.write, hji] using hs.own j hocc
  · rcases hhas hj with ⟨rfl, rfl⟩ | ⟨-, hj⟩
    · exact ⟨hslots, hplace' hplace⟩
    · exact ⟨hslots, hplace' (hs.place k j hj).2⟩
  · rcases hhas hj with ⟨hji, hk⟩ | ⟨hji, hold⟩ <;> rcases hhas hj' with ⟨hji', hk'⟩ | ⟨hji', hold'⟩
    · rw [hji, hji']
    · exact absurd (hno j' (hk ▸ hold')) hji'
    · exact absurd (hno j (hk' ▸ hold)) hji
    · exact hs.unique k j j' hold hold'

theorem Sound.bury (hs : Sound g r s) (i : Nat) : Sound g r (s.bury r i) := by
  have hhas : ∀ {k j}, HasAt g r k (s.bury r i) j → j ≠ i ∧ HasAt g r k s j := by
    intro k j hj
    by_cases hji : j = i
    · subst hji
      simp [HasAt, Mem.bury, Entry.matches] at hj
    · exact ⟨hji, by simpa [HasAt, Mem.bury, hji] using hj⟩
  refine ⟨fun j hj => ?_, fun k j hj => ?_, fun k j j' hj hj' => ?_⟩
  · by_cases hji : j = i
    · subst hji
      simp [Mem.bury] at hj
    · have hocc : (s.entry r j).state = .occupied := by simpa [Mem.bury, hji] using hj
      simpa [HasAt, Mem.bury, hji] using hs.own j hocc
  · obtain ⟨hslots, hmem, hpre⟩ := hs.place k j (hhas hj).2
    refine ⟨hslots, hmem, fun x hx => ?_⟩
    by_cases hxi : x = i
    · simp [Mem.bury, hxi]
    · simpa [Mem.bury, hxi] using hpre x hx
  · exact hs.unique k j j' (hhas hj).2 (hhas hj').2

theorem Sound.markExpires (hs : Sound g r s) (i expires : Nat) :
    Sound g r (s.markExpires r i expires) := by
  have hentry : ∀ j, ((s.markExpires r i expires).entry r j).state = (s.entry r j).state ∧
      ((s.markExpires r i expires).entry r j).key = (s.entry r j).key ∧
      ((s.markExpires r i expires).entry r j).hash = (s.entry r j).hash := by
    intro j
    by_cases hji : j = i <;> simp [Mem.markExpires, hji]
  have hhas : ∀ k j, HasAt g r k (s.markExpires r i expires) j ↔ HasAt g r k s j := by
    intro k j
    obtain ⟨h1, h2, h3⟩ := hentry j
    simp only [HasAt, Entry.matches, h1, h2, h3]
  refine ⟨fun j hj => ?_, fun k j hj => ?_, fun k j j' hj hj' => ?_⟩
  · rw [(hentry j).2.1, hhas]
    exact hs.own j (by rwa [← (hentry j).1])
  · obtain ⟨hslots, hmem, hpre⟩ := hs.place k j ((hhas k j).1 hj)
    exact ⟨hslots, hmem, fun x hx => by rw [(hentry x).1]; exact hpre x hx⟩
  · exact hs.unique k j j' ((hhas k j).1 hj) ((hhas k j').1 hj')

/-! ## The loops, alone

`At` decides them: no slot of the window has the key, or one does and no slot in front of it is
empty. -/

section
variable {h : Nat} {w : List Nat} {i : Nat}

/-- A slot that has the key, with no empty slot and no other slot of the key in front of it. -/
def First (r : Region) (key : Bytes) (h : Nat) (s : Mem) (w : List Nat) (i : Nat) : Prop :=
  w.find? (stops r key h s) = some i ∧ (s.entry r i).matches key h = true ∧
    ∀ j, (s.entry r j).matches key h = true → j = i

theorem first_cons {j : Nat} (hf : First r key h s (j :: w) i) :
    j = i ∨ (j ≠ i ∧ (s.entry r j).state ≠ .empty ∧ (s.entry r j).matches key h = false ∧
      First r key h s w i) := by
  obtain ⟨hfind, hm, huniq⟩ := hf
  by_cases hji : j = i
  · exact .inl hji
  · have hjm : (s.entry r j).matches key h = false := Bool.eq_false_iff.2 fun h' => hji (huniq j h')
    refine .inr ⟨hji, fun hempty => ?_, hjm, ?_, hm, huniq⟩
    · rw [find?_cons_of_pos (by simp [stops, hempty])] at hfind
      exact hji (Option.some.inj hfind)
    · rw [find?_cons] at hfind
      split at hfind
      · exact absurd (Option.some.inj hfind) hji
      · exact hfind

theorem deleteScan_none (hno : ∀ j, (s.entry r j).matches key h = false) (found : Bool) :
    (deleteScan r key h w found).run s = (s, found) := by
  induction w with
  | nil => rfl
  | cons j w ih =>
    simp only [deleteScan, run_atom, hno j, Bool.false_eq_true, if_false]
    split
    · rfl
    · exact ih

theorem deleteScan_some (hf : First r key h s w i) (found : Bool) :
    (deleteScan r key h w found).run s = (s.bury r i, true) := by
  induction w with
  | nil => cases hf.1
  | cons j w ih =>
    simp only [deleteScan, run_atom]
    rcases first_cons hf with rfl | ⟨-, hempty, hjm, hf'⟩
    · have hocc := (Entry.matches_iff.1 hf.2.1).1
      simp only [hocc, reduceCtorEq, if_false, hf.2.1, if_true]
      refine deleteScan_none (fun x => ?_) true
      by_cases hxj : x = j
      · simp [Mem.bury, hxj, Entry.matches]
      · rw [Mem.bury, Mem.put_ne _ _ _ _ hxj]
        exact Bool.eq_false_iff.2 fun h' => hxj (hf.2.2 x h')
    · simp only [hempty, hjm, Bool.false_eq_true, if_false]
      exact ih hf'

theorem touchScan_none (hno : ∀ j, (s.entry r j).matches key h = false) (expires now : Nat) :
    (touchScan r key h expires now w).run s = (s, false) := by
  induction w with
  | nil => rfl
  | cons j w ih =>
    simp only [touchScan, run_atom, hno j, Bool.false_eq_true, if_false]
    split
    · rfl
    · exact ih

theorem touchScan_some (hf : First r key h s w i) (expires now : Nat) :
    (touchScan r key h expires now w).run s = if (s.entry r i).expired now then (s.bury r i, false)
      else (s.markExpires r i expires, true) := by
  induction w with
  | nil => cases hf.1
  | cons j w ih =>
    simp only [touchScan, run_atom]
    rcases first_cons hf with rfl | ⟨-, hempty, hjm, hf'⟩
    · have hocc := (Entry.matches_iff.1 hf.2.1).1
      simp only [hocc, reduceCtorEq, if_false, hf.2.1, if_true]
      split <;> rfl
    · simp only [hempty, hjm, Bool.false_eq_true, if_false]
      exact ih hf'

theorem claimScan_none {α : Type} {hit : Mem → Nat → Mem × α} {commit : Option Nat → Prog Mem α}
    (hno : ∀ j, (s.entry r j).matches key h = false) (pick : Option Nat) :
    (claimScan r key h hit commit w pick).run s =
      (commit (pick.or (w.find? fun j => (s.entry r j).state ≠ .occupied))).run s := by
  induction w generalizing pick with
  | nil => simp [claimScan]
  | cons j w ih =>
    simp only [claimScan, run_atom, hno j, Bool.false_eq_true, if_false]
    cases hst : (s.entry r j).state with
    | empty => simp [hst]
    | occupied => simp [hst, ih]
    | tombstone =>
      simp only [reduceCtorEq, if_false, ih]
      rw [find?_cons_of_pos (by simp [hst]), Option.or_assoc, some_or]

theorem claimScan_some {α : Type} {hit : Mem → Nat → Mem × α} {commit : Option Nat → Prog Mem α}
    (hf : First r key h s w i) (pick : Option Nat) :
    (claimScan r key h hit commit w pick).run s = hit s i := by
  induction w generalizing pick with
  | nil => cases hf.1
  | cons j w ih =>
    simp only [claimScan, run_atom]
    rcases first_cons hf with rfl | ⟨-, hempty, hjm, hf'⟩
    · simp [hf.2.1]
    · simp only [hempty, hjm, Bool.false_eq_true, if_false]
      exact ih hf' _

theorem tombstoneOthers_run {keep : Nat}
    (hno : ∀ j, (s.entry r j).matches key h = true → j = keep) :
    (tombstoneOthers r key h keep w).run s = (s, true) := by
  induction w with
  | nil => rfl
  | cons j w ih =>
    rw [tombstoneOthers]
    split
    · exact ih
    · rename_i hjk
      have hjm : (s.entry r j).matches key h = false := Bool.eq_false_iff.2 fun h' => hjk (hno j h')
      simp only [run_atom, hjm, Bool.false_eq_true, if_false]
      split
      · rfl
      · exact ih

theorem setScan_some (hf : First r key h s w i) (val : Bytes) (expires now : Nat) (a : SetAcc) :
    (setScan g r key val h expires now w a).run s = (s.write r i key val h expires, true) := by
  induction w generalizing a with
  | nil => cases hf.1
  | cons j w ih =>
    simp only [setScan, run_atom]
    rcases first_cons hf with rfl | ⟨-, hempty, hjm, hf'⟩
    · simp [hf.2.1]
    · simp only [hempty, hjm, Bool.false_eq_true, if_false]
      exact ih hf' _

/-- What the loop of `set` has found after the slots `done`: they are not empty, its free slot is
one the walk gets to, and its victims are in the window. -/
structure SetOk (g : Config) (r : Region) (key : Bytes) (s : Mem) (done : List Nat) (a : SetAcc) :
    Prop where
  done : ∀ j ∈ done, (s.entry r j).state ≠ .empty
  reuse : ∀ x, a.reuse = some x → Place g r key s x
  victim : a.victim ∈ g.window r (g.hash key)
  expired : ∀ x, a.expiredVictim = some x → x ∈ g.window r (g.hash key)

theorem SetOk.see {done : List Nat} {a : SetAcc} {j : Nat} {rest : List Nat}
    (hpath : g.window r (g.hash key) = done ++ j :: rest) (ha : SetOk g r key s done a)
    (now : Nat) : (∀ x, (a.see j (s.entry r j) now).reuse = some x → Place g r key s x) ∧
      (a.see j (s.entry r j) now).victim ∈ g.window r (g.hash key) ∧
      ∀ x, (a.see j (s.entry r j) now).expiredVictim = some x → x ∈ g.window r (g.hash key) := by
  have hj : j ∈ g.window r (g.hash key) := by simp [hpath]
  have hplace : Place g r key s j := by
    refine ⟨hj, fun x hx => ha.done x ?_⟩
    rw [hpath] at hx
    exact passed_subset hx
  unfold SetAcc.see
  split
  · refine ⟨ha.reuse, ?_, fun x hx => ?_⟩
    · simp only
      split
      exacts [hj, ha.victim]
    · simp only at hx
      split at hx
      · cases he : a.expiredVictim with
        | none =>
          rw [he] at hx
          cases hx
          exact hj
        | some y =>
          rw [he] at hx
          cases hx
          exact ha.expired _ he
      · exact ha.expired x hx
  · refine ⟨fun x hx => ?_, ha.victim, ha.expired⟩
    cases hr : a.reuse with
    | none =>
      simp only [hr, none_or, Option.some.injEq] at hx
      exact hx ▸ hplace
    | some y =>
      simp only [hr, some_or, Option.some.injEq] at hx
      exact hx ▸ ha.reuse y hr

theorem setOk_start (g : Config) (r : Region) (key : Bytes) (s : Mem) :
    SetOk g r key s [] (.start (g.hash key) (g.slots r)) := by
  refine ⟨by simp, by simp [SetAcc.start], ?_, by simp [SetAcc.start]⟩
  obtain ⟨w, hw⟩ := window_succ 31 (g.slots r) (g.hash key)
  have hlt : g.hash key < U64 := (g.hasher key).toNat_lt
  have hmod : u64Add (g.hash key) 0 = g.hash key := by
    rw [u64Add, Nat.add_zero, Nat.mod_eq_of_lt hlt]
  rw [hmod] at hw
  simp [SetAcc.start, Config.window, PROBE, hw]

theorem SetOk.target_all {done : List Nat} {a : SetAcc} (hpath : g.window r (g.hash key) = done)
    (ha : SetOk g r key s done a) : Place g r key s a.target := by
  have hall : ∀ x ∈ g.window r (g.hash key), Place g r key s x :=
    fun x hx => ⟨hx, fun j hj => ha.done j (hpath ▸ mem_of_mem_passed hj)⟩
  cases hr : a.reuse with
  | some x =>
    rw [SetAcc.target, hr]
    exact ha.reuse x hr
  | none =>
    rw [SetAcc.target, hr, none_or]
    cases he : a.expiredVictim with
    | some x => exact hall x (ha.expired x he)
    | none => exact hall _ ha.victim

theorem SetOk.target_end {done : List Nat} {a : SetAcc} {j : Nat} {rest : List Nat}
    (hpath : g.window r (g.hash key) = done ++ j :: rest) (ha : SetOk g r key s done a) (now : Nat)
    (hempty : (s.entry r j).state = .empty) :
    Place g r key s (a.see j (s.entry r j) now).target := by
  have hsome : ∃ x, (a.see j (s.entry r j) now).reuse = some x := by
    rw [SetAcc.see, if_neg (by simp [hempty])]
    cases a.reuse <;> simp
  obtain ⟨x, hx⟩ := hsome
  rw [SetAcc.target, hx]
  exact (ha.see hpath now).1 x hx

theorem SetOk.on {done : List Nat} {a : SetAcc} {j : Nat} {rest : List Nat}
    (hpath : g.window r (g.hash key) = done ++ j :: rest) (ha : SetOk g r key s done a) (now : Nat)
    (hne : (s.entry r j).state ≠ .empty) :
    SetOk g r key s (done ++ [j]) (a.see j (s.entry r j) now) := by
  obtain ⟨h1, h2, h3⟩ := ha.see hpath now
  refine ⟨fun x hx => ?_, h1, h2, h3⟩
  rcases mem_append.1 hx with hx | hx
  · exact ha.done x hx
  · rw [mem_singleton.1 hx]
    exact hne

theorem setScan_none (hno : ∀ j, (s.entry r j).matches key (g.hash key) = false) (val : Bytes)
    (expires now : Nat) {done rest : List Nat} {a : SetAcc}
    (hpath : g.window r (g.hash key) = done ++ rest) (ha : SetOk g r key s done a) :
    ∃ t, Place g r key s t ∧ (setScan g r key val (g.hash key) expires now rest a).run s =
      (setWrite g r key val (g.hash key) expires t).run s := by
  induction rest generalizing done a with
  | nil =>
    rw [append_nil] at hpath
    exact ⟨a.target, ha.target_all hpath, rfl⟩
  | cons j rest ih =>
    simp only [setScan, run_atom, hno j, Bool.false_eq_true, if_false]
    split
    · rename_i hempty
      exact ⟨_, ha.target_end hpath now hempty, rfl⟩
    · rename_i hne
      have hpath' : g.window r (g.hash key) = (done ++ [j]) ++ rest := by simp [hpath]
      exact ih hpath' (ha.on hpath now hne)

end

/-! ## The functions, alone -/

theorem Sound.first (hs : Sound g r s) {i : Nat} (hi : HasAt g r key s i) :
    First r key (g.hash key) s (g.window r (g.hash key)) i :=
  ⟨hs.find?_stops hi, hi, fun j hj => hs.unique key j i hj hi⟩

theorem At.no_match (ho : At g r key s none) (j : Nat) :
    (s.entry r j).matches key (g.hash key) = false := Bool.eq_false_iff.2 (ho j)

theorem place_find? {t : Nat}
    (ht : (g.window r (g.hash key)).find? (fun j => (s.entry r j).state ≠ .occupied) = some t) :
    Place g r key s t ∧ (s.entry r t).state ≠ .occupied := by
  obtain ⟨hm, hfree, hpre⟩ := find?_eq_some_iff.1 ht
  refine ⟨⟨hm, fun j hj hempty => hpre j hj ?_⟩, by simpa using hfree⟩
  simp [hempty]

theorem Region.get_absent (hno : ∀ j, (s.entry r j).matches key (g.hash key) = false) :
    (r.get g key (g.hash key)).run s = (s, none) := by
  rw [Region.get]
  split
  · rfl
  · rw [run_read, getScan_run]
    split
    · rfl
    · simp [hno]

theorem Region.get_found {i : Nat} (hslots : g.slots r ≠ 0)
    (hf : (g.window r (g.hash key)).find? (stops r key (g.hash key) s) = some i)
    (hm : (s.entry r i).matches key (g.hash key) = true) : (r.get g key (g.hash key)).run s =
      if (s.entry r i).expired s.nowSecs then (s.bury r i, none)
      else (s, some (s.entry r i).val) := by
  rw [Region.get, if_neg hslots, run_read, getScan_run, hf]
  simp only [hm, if_true]

section
variable (hs : Sound g r s) (ho : At g r key s o)
include hs ho

/-- `delete` buries the entry of the key, if there is one. -/
theorem Region.delete_run : (r.delete g key (g.hash key)).run s =
    o.elim (s, false) fun i => (s.bury r i, true) := by
  rw [Region.delete]
  cases o with
  | none =>
    split
    · rfl
    · exact deleteScan_none ho.no_match false
  | some i =>
    rw [if_neg (hs.place key i ho).1]
    exact deleteScan_some (hs.first ho) false

/-- `get` returns what the entry holds, and buries it if it has expired. -/
theorem Region.get_run : (r.get g key (g.hash key)).run s = o.elim (s, none) fun i =>
      if (s.entry r i).expired s.nowSecs then (s.bury r i, none)
      else (s, some (s.entry r i).val) := by
  cases o with
  | none => exact Region.get_absent ho.no_match
  | some i => exact Region.get_found (hs.place key i ho).1 (hs.find?_stops ho) ho

/-- `touch` moves the deadline of a live entry. -/
theorem Region.touch_run (ttl : Nat) : (r.touch g key (g.hash key) ttl).run s =
    o.elim (s, false) fun i => if (s.entry r i).expired s.nowSecs then (s.bury r i, false)
      else (s.markExpires r i (deadline s.nowSecs ttl), true) := by
  rw [Region.touch]
  cases o with
  | none =>
    split
    · rfl
    · exact touchScan_none ho.no_match _ _
  | some i =>
    rw [if_neg (hs.place key i ho).1, run_read]
    exact touchScan_some (hs.first ho) _ _

theorem Sound.write_at (hlen : key.length ≤ KEY_MAX) (hslots : g.slots r ≠ 0) {t : Nat}
    (ht : o = some t ∨ (o = none ∧ Place g r key s t)) (val : Bytes) (expires : Nat) :
    Sound g r (s.write r t key val (g.hash key) expires) := by
  rcases ht with rfl | ⟨rfl, ht⟩
  · exact hs.write hslots hlen (hs.place key t ho).2 (fun j hj => hs.unique key j t hj ho) val
      expires
  · exact hs.write hslots hlen ht (fun j hj => absurd hj (ho j)) val expires

/-- `set`: the key is written, in its slot or in one its walk gets to. -/
theorem Region.set_run (hslots : g.slots r ≠ 0) {val : Bytes} (hval : val.length ≤ r.valMax)
    (ttl : Nat) : ∃ t, (o = some t ∨ (o = none ∧ Place g r key s t)) ∧
      (r.set g key val (g.hash key) ttl).run s =
        (s.write r t key val (g.hash key) (deadline s.nowSecs ttl), true) := by
  rw [Region.set, if_neg hslots, if_neg (Nat.not_lt.2 hval), run_read]
  cases o with
  | some i => exact ⟨i, .inl rfl, setScan_some (hs.first ho) _ _ _ _⟩
  | none =>
    obtain ⟨t, ht, hrun⟩ := setScan_none ho.no_match val (deadline s.nowSecs ttl) s.nowSecs
      (nil_append (g.window r (g.hash key))).symm (setOk_start g r key s)
    refine ⟨t, .inr ⟨rfl, ht⟩, ?_⟩
    rw [hrun, setWrite, run_atom]
    refine tombstoneOthers_run fun j hj => ?_
    by_contra hjt
    rw [Mem.write, Mem.put_ne _ _ _ _ hjt, ho.no_match j] at hj
    cases hj

/-- `add`: refused where the key is live, and where the window is full of other keys. -/
theorem Region.add_run (hslots : g.slots r ≠ 0) {val : Bytes} (hval : val.length ≤ r.valMax)
    (ttl : Nat) :
    (∃ t, (o = some t ∧ (s.entry r t).expired s.nowSecs = true ∨ o = none ∧ Place g r key s t) ∧
      (r.add g key val (g.hash key) ttl).run s =
        (s.write r t key val (g.hash key) (deadline s.nowSecs ttl), true)) ∨
      (r.add g key val (g.hash key) ttl).run s = (s, false) := by
  rw [Region.add, if_neg hslots, if_neg (Nat.not_lt.2 hval), run_read]
  cases o with
  | some i =>
    rw [claimScan_some (hs.first ho), addHit]
    split
    · rename_i hexp
      exact .inl ⟨i, .inl ⟨rfl, hexp⟩, rfl⟩
    · exact .inr rfl
  | none =>
    rw [claimScan_none ho.no_match, none_or]
    cases hf : (g.window r (g.hash key)).find? fun j => (s.entry r j).state ≠ .occupied with
    | none => exact .inr rfl
    | some t =>
      obtain ⟨hplace, hfree⟩ := place_find? hf
      refine .inl ⟨t, .inr ⟨rfl, hplace⟩, ?_⟩
      simp [addCommit, ho.no_match t, hfree]

/-- `increment`: the key is written, in its slot or in one its walk gets to, unless the window is
full of other keys. -/
theorem Region.increment_run (delta : Int) (ttl : Nat) :
    (∃ t val expires, g.slots r ≠ 0 ∧ (o = some t ∨ o = none ∧ Place g r key s t) ∧
      ((r.increment g key (g.hash key) delta ttl).run s).1 =
        s.write r t key val (g.hash key) expires) ∨
      ((r.increment g key (g.hash key) delta ttl).run s).1 = s := by
  rw [Region.increment]
  split
  · exact .inr rfl
  rename_i hslots
  rw [run_read]
  cases o with
  | some i =>
    rw [claimScan_some (hs.first ho), incrementHit]
    split
    exacts [.inl ⟨i, _, _, hslots, .inl rfl, rfl⟩, .inl ⟨i, _, _, hslots, .inl rfl, rfl⟩]
  | none =>
    rw [claimScan_none ho.no_match, none_or]
    cases hf : (g.window r (g.hash key)).find? fun j => (s.entry r j).state ≠ .occupied with
    | none => exact .inr rfl
    | some t =>
      obtain ⟨hplace, -⟩ := place_find? hf
      refine .inl ⟨t, Bytes.intBytes delta, deadline s.nowSecs ttl, hslots, .inr ⟨rfl, hplace⟩, ?_⟩
      simp [incrementCommit, ho.no_match t]

end

end Askr.Kv
