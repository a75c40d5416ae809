import Askr.Kv.Counter
import Askr.Kv.Shelf
import Mathlib.Data.Nat.Digits.Defs

/-!
# The count that is returned is the count that is stored

`increment` leaves the new count in the small region, where `get` looks first: what it returns is
what `get` finds, and what the next `increment` goes on from. `increment_stored` says exactly when.
Where the key has no live counter and the window is full, `increment` returns `delta` and stores
nothing, so each call starts from nothing (`increment_forgotten`); and a `ttl` that takes the
deadline of a new counter past the end of the word has it expired as soon as it is there. What `get`
then finds is in the large region, where every value is longer than a count (`Long`).
-/

namespace Askr.Kv

open Conc Prog Bytes Option

/-- The key counts `v`: that is what `get` finds, and an `increment`, with or without the `get` in
front of it, returns the saturating sum. -/
def Counts (g : Config) (app : Option Ns.App) (name : Bytes) (ttl : Nat) (s : Mem) (v : Int) :
    Prop :=
  ((code g ⟨app, name, .get⟩).run s).2 = .value (some (intBytes v)) ∧
    ∀ e, ((code g ⟨app, name, .increment e ttl⟩).run s).2 = .count (satAddI64 v e) ∧
      ((code g ⟨app, name, .increment e ttl⟩).run ((code g ⟨app, name, .get⟩).run s).1).2 =
        .count (satAddI64 v e)

/-- After an `increment` that has returned `v` the key counts `v`. -/
def IncrementStored (g : Config) (s : Mem) (app : Option Ns.App) (name : Bytes) (d : Int)
    (ttl : Nat) : Prop :=
  ∀ v, ((code g ⟨app, name, .increment d ttl⟩).run s).2 = .count v →
    Counts g app name ttl ((code g ⟨app, name, .increment d ttl⟩).run s).1 v

variable {g : Config} {key name : Bytes} {app : Option Ns.App} {s : Mem} {d : Int} {ttl now : Nat}

theorem inI64_satAddI64 (a b : Int) : InI64 (satAddI64 a b) := by
  simp only [InI64, satAddI64]
  omega

theorem Shelf.inI64_counted (hd : InI64 d) (now ttl : Nat) (o : Option Held) :
    InI64 (counted now d ttl o).1 := by
  unfold counted
  split
  · exact hd
  · split
    exacts [inI64_satAddI64 _ _, inI64_satAddI64 _ _]

/-- What `increment` leaves is live where it was, or where the deadline that is set now is not over.
-/
theorem Shelf.counted_live_iff (o : Option Held) (val : Bytes) :
    Held.expired ⟨val, (counted now d ttl o).2⟩ now = false ↔
      (∃ e, o = some e ∧ e.expired now = false) ∨
        (deadline now ttl = 0 ∨ now ≤ deadline now ttl) := by
  have hnew : Held.expired ⟨val, deadline now ttl⟩ now = false ↔
      deadline now ttl = 0 ∨ now ≤ deadline now ttl := by
    simp only [Held.expired, Bool.and_eq_false_iff, decide_eq_false_iff_not]
    omega
  cases o with
  | none => simp [counted, hnew]
  | some e =>
    cases he : e.expired now with
    | true => simp [counted, he, hnew]
    | false =>
      have hkept : Held.expired ⟨val, e.expiresAt⟩ now = false := he
      simp [counted, he, hkept]

theorem counts_of_shelf (hs : SoundBoth g s) (hkey : (Ns.key app name).length ≤ KEY_MAX)
    (hslots : g.slots .small ≠ 0) {v : Int} (hv : InI64 v) {expires : Nat}
    (hshelf : s.shelf g (Ns.key app name) .small = some ⟨intBytes v, expires⟩)
    (hlive : Held.expired ⟨intBytes v, expires⟩ s.nowSecs = false) : Counts g app name ttl s v := by
  have hgetAt : Shelf.getAt .small s.nowSecs (s.shelf g (Ns.key app name)) =
      (s.shelf g (Ns.key app name), some (intBytes v)) := by
    simp [Shelf.getAt, hshelf, hlive]
  have hget : Served g (Ns.key app name) s ((code g ⟨app, name, .get⟩).run s)
      (s.shelf g (Ns.key app name), .value (some (intBytes v))) := by
    have h := (get_served hs hkey).map Res.value
    simpa only [Shelf.get, hgetAt, isSome_some, if_true, code, Call.key, run_map] using h
  have hnext : ∀ {s' : Mem}, SoundBoth g s' → s'.nowSecs = s.nowSecs →
      s'.shelf g (Ns.key app name) = s.shelf g (Ns.key app name) → ∀ e,
      ((code g ⟨app, name, .increment e ttl⟩).run s').2 = .count (satAddI64 v e) := by
    intro s' hs' hnow hsame e
    rw [(code_increment_served hs' hkey hslots (fun h => by simp [hsame, hshelf] at h) e ttl).res]
    simp [hsame, hshelf, hnow, Shelf.counted, hlive, counterOf_intBytes hv]
  exact ⟨hget.res, fun e => ⟨hnext hs rfl rfl e, hnext hget.sound hget.nowSecs hget.here e⟩⟩

/-! ## The large region -/

/-- Every value of the large region is longer than `VAL_SMALL`. -/
def Long (s : Mem) : Prop :=
  ∀ i, (s.entry .large i).state = .occupied → VAL_SMALL < (s.entry .large i).val.length

theorem Long.put (hlong : Long s) (i : Nat) {e : Entry}
    (he : e.state = .occupied → VAL_SMALL < e.val.length) : Long (s.put .large i e) := by
  intro j
  by_cases hj : j = i
  · subst hj
    simpa using he
  · simpa [hj] using hlong j

/-- An action in the large region that writes long values only keeps them long. -/
theorem Long.act {h : Nat} {P : Bytes → Prop} (hP : ∀ val, P val → VAL_SMALL < val.length)
    {T : Prop} {s' : Mem}
    (ha : Act .large key h P T s s') (hlong : Long s) : Long s' := by
  cases ha with
  | same => exact hlong
  | write i val expires hval => exact hlong.put i fun _ => hP val hval
  | bury i hm => exact hlong.put i fun hocc => by cases hocc
  | mark i x _ hm => exact hlong.put i fun _ => hlong i (Entry.matches_iff.1 hm).1

/-- An operation puts no short value in the large region. -/
theorem Long.step (hlong : Long s) (op : Op) : Long (seqStep g s op) := by
  cases op with
  | tick n => exact hlong
  | call c =>
    refine Guar.run (G := fun s s' => Long s → Long s') (fun _ => id) (fun h h' hl => h' (h hl))
      (code_acts g c (fun s s' ha hl i => ?_) fun s s' ha hl => hl.act (fun _ hw => hw.2) ha) s
      hlong
    rw [ha.other (by decide)]
    exact hl i

/-- In every run the values of the large region are long. -/
theorem long_ran (g : Config) (start : Nat) (ops : List Op) : Long (ran g start ops) := by
  refine Run.runs_inv (I := Long) (fun _ op hl => hl.step op) ops fun i hocc => ?_
  simp [Mem.init, Entry.zeroed] at hocc

theorem Long.of_shelf (hlong : Long s) {e : Held} (he : s.shelf g key .large = some e) :
    VAL_SMALL < e.val.length := by
  obtain ⟨i, hi, rfl⟩ := map_eq_some_iff.1 he
  have hm := List.find?_some hi
  exact hlong i (Entry.matches_iff.1 hm).1

theorem length_intBytes_le {v : Int} (hv : InI64 v) : (intBytes v).length ≤ VAL_SMALL := by
  have hdigits : ∀ n : Nat, n < 10 ^ 19 → (natBytes n).length ≤ 19 := fun n hn => by
    simpa [natBytes] using Nat.toDigits_length 10 n 19 (by decide) hn
  obtain ⟨hlo, hhi⟩ := hv
  cases v with
  | ofNat n =>
    have hn : n < 10 ^ 19 := by
      rw [Int.ofNat_eq_natCast] at hhi
      omega
    exact (hdigits n hn).trans (by decide)
  | negSucc n => exact Nat.succ_le_of_lt ((hdigits (n + 1) (by omega)).trans_lt (by decide))

/-! ## Where nothing is stored -/

/-- A key without a live counter in the small region counts nothing. -/
theorem not_counts (hs : SoundBoth g s) (hlong : Long s)
    (hkey : (Ns.key app name).length ≤ KEY_MAX) {v : Int} (hv : InI64 v)
    (hdead : ∀ e, s.shelf g (Ns.key app name) .small = some e → e.expired s.nowSecs = true) :
    ¬ Counts g app name ttl s v := by
  intro hcounts
  have hget : (Shelf.get s.nowSecs (s.shelf g (Ns.key app name))).2 = some (intBytes v) := by
    rw [← (get_served hs hkey).res]
    simpa only [code, Call.key, run_map, Res.value.injEq] using hcounts.1
  have hsmall : (Shelf.getAt .small s.nowSecs (s.shelf g (Ns.key app name))).2 = none ∧
      (Shelf.getAt .small s.nowSecs (s.shelf g (Ns.key app name))).1 .large =
        s.shelf g (Ns.key app name) .large := by
    cases he : s.shelf g (Ns.key app name) .small with
    | none => simp [Shelf.getAt, he]
    | some e => simp [Shelf.getAt, he, hdead e he, Shelf.put]
  rw [Shelf.get, hsmall.1, if_neg (by simp), Shelf.getAt, hsmall.2] at hget
  split at hget
  · cases hget
  · rename_i e he
    split at hget
    · cases hget
    · have hle := length_intBytes_le hv
      rw [← some.inj hget] at hle
      exact absurd (hlong.of_shelf he) (Nat.not_lt.2 hle)

/-- Where the window is full and does not have the key, `increment` stores nothing. -/
theorem increment_full (d : Int) (ttl : Nat) (hs : SoundBoth g s)
    (hkey : (Ns.key app name).length ≤ KEY_MAX) (hslots : g.slots .small ≠ 0)
    (hnone : s.shelf g (Ns.key app name) .small = none)
    (hfull : ¬ HasRoom g .small (Ns.key app name) s) :
    (code g ⟨app, name, .increment d ttl⟩).run s = (s, .count d) := by
  obtain ⟨o, ho⟩ := exists_at g .small (Ns.key app name) s
  have hshelf := (hs .small).shelf_eq ho
  rw [hnone] at hshelf
  cases o with
  | some i => cases hshelf
  | none =>
    have hfind : (g.window .small (g.hash (Ns.key app name))).find?
        (fun j => (s.entry .small j).state ≠ .occupied) = none := by
      refine List.find?_eq_none.2 fun j hj => ?_
      by_contra hfree
      exact hfull (.inr ⟨j, hj, by simpa using hfree⟩)
    have hrun : ∀ hit commit, (claimScan .small (Ns.key app name) (g.hash (Ns.key app name)) hit
        commit (g.window .small (g.hash (Ns.key app name))) none).run s =
          (commit none : Prog Mem Int).run s := fun hit commit => by
      rw [claimScan_none ho.no_match, hfind, or_none]
    simp [code, Call.key, increment, Nat.not_lt.2 hkey, Region.increment, hslots, hrun,
      incrementCommit]

/-- **What `increment` returns is stored** exactly where the small region is mapped, and the key has
a live counter in it, or room for one (the slot it has, or a free one) and a deadline that has not
passed when it is set. -/
theorem increment_stored (g : Config) (start : Nat) (ops : List Op) (app : Option Ns.App)
    (name : Bytes) (d : Int) (ttl : Nat) (hkey : (Ns.key app name).length ≤ KEY_MAX)
    (hd : InI64 d) :
    IncrementStored g (ran g start ops) app name d ttl ↔
      g.slots .small ≠ 0 ∧
        ((∃ e, (ran g start ops).shelf g (Ns.key app name) .small = some e ∧
            e.expired (ran g start ops).nowSecs = false) ∨
          ((ran g start ops).shelf g (Ns.key app name) .small = none →
              HasRoom g .small (Ns.key app name) (ran g start ops)) ∧
            (deadline (ran g start ops).nowSecs ttl = 0 ∨
              (ran g start ops).nowSecs ≤ deadline (ran g start ops).nowSecs ttl)) := by
  have hs := soundBoth_ran g start ops
  have hlong := long_ran g start ops
  generalize ran g start ops = s at hs hlong ⊢
  by_cases hslots : g.slots .small = 0
  · refine iff_of_false (fun hstored => ?_) fun h => h.1 hslots
    have hzero : ∀ e, (code g ⟨app, name, .increment e ttl⟩).run s = (s, .count 0) := by
      simp [code, Call.key, increment, Nat.not_lt.2 hkey, Region.increment, hslots]
    have hnext := (hstored 0 (by rw [hzero])).2 1
    simp [hzero, satAddI64] at hnext
  rw [and_iff_right hslots]
  by_cases hroom : s.shelf g (Ns.key app name) .small = none →
      HasRoom g .small (Ns.key app name) s
  · have h := code_increment_served hs hkey hslots hroom d ttl
    have hshelf := congrFun h.here .small
    simp only [Shelf.put, Function.update_self] at hshelf
    have hin := Shelf.inI64_counted hd s.nowSecs ttl (s.shelf g (Ns.key app name) .small)
    generalize hnext : Shelf.counted s.nowSecs d ttl (s.shelf g (Ns.key app name) .small) = next
      at h hshelf hin
    rw [and_iff_right hroom, ← Shelf.counted_live_iff (d := d) _ (intBytes next.1), hnext,
      ← h.nowSecs]
    refine ⟨fun hstored => ?_, fun hlive v hv => ?_⟩
    · by_contra hdead
      refine not_counts h.sound (hlong.step (.call ⟨app, name, .increment d ttl⟩)) hkey hin ?_
        (hstored _ h.res)
      intro e he
      rw [← some.inj (hshelf.symm.trans he)]
      exact Bool.not_eq_false _ ▸ hdead
    · obtain rfl : _ = v := Res.count.inj (h.res.symm.trans hv)
      exact counts_of_shelf h.sound hkey hslots hin hshelf hlive
  · obtain ⟨hnone, hfull⟩ := Classical.not_imp.1 hroom
    refine iff_of_false (fun hstored => ?_) ?_
    · have hrun := increment_full d ttl hs hkey hslots hnone hfull
      refine not_counts hs hlong hkey hd (fun e he => ?_) (hrun ▸ hstored d (by rw [hrun]))
      rw [hnone] at he
      cases he
    · rintro (⟨e, he, -⟩ | ⟨h, -⟩)
      exacts [absurd (hnone.symm.trans he) (by simp), hroom h]

/-- All keys have one home slot. -/
def crowd : Config := .init (fun _ => 0) 16 16

/-- As many keys as there are slots. -/
def crowded : List Op :=
  (List.range 16).map fun n => .call (callOn (toString n) (.set [48] 0))

theorem increment_stored_crowded :
    IncrementStored crowd (ran crowd 0 crowded) none (ofString "0") 5 0 :=
  (increment_stored crowd 0 crowded none _ 5 0 (by decide) (by decide)).2
    ⟨by decide, .inr ⟨fun h => absurd h (by decide +kernel), .inl rfl⟩⟩

/-- **A count that is not stored.** The window of a new key is full: `increment` returns 1, and
`get` finds nothing. -/
theorem increment_forgotten : ¬ ∀ (g : Config) (start : Nat) (ops : List Op)
    (app : Option Ns.App) (name : Bytes) (d : Int) (ttl : Nat),
    (Ns.key app name).length ≤ KEY_MAX → InI64 d →
    IncrementStored g (ran g start ops) app name d ttl := by
  intro h
  obtain ⟨hget, -⟩ := h crowd 0 crowded none (ofString "k") 1 0 (by decide) (by decide) 1
    (by decide +kernel)
  exact absurd hget (by decide +kernel)

end Askr.Kv
