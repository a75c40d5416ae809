import Askr.Conc.Pool
import Askr.Kv.Effect

/-!
# The walk of one key

What the proofs about one key in the small region share: the slots its walk visits (`path`), whether
a slot holds the key (`Has`) or another one (`Taken`), where the key is (`Holder`), and that no
entry on the way is past its deadline (`Unexpired`). A lookup finds the key where it is
(`Holder.get_run`).
-/

namespace Askr.Kv

open Conc Probe

section
variable (g : Config) (k : Bytes)

/-- The walk of the key in the small region. -/
abbrev path : List Nat := g.window .small (g.hash k)

/-- Slot `i` of the small region holds the key. -/
def Has (s : Mem) (i : Nat) : Prop := (s.entry .small i).matches k (g.hash k) = true

/-- Slot `i` of the small region holds another key. -/
def Taken (s : Mem) (i : Nat) : Prop :=
  (s.entry .small i).state = .occupied ∧ ¬ Has g k s i

/-- No entry on the walk of the key is past its deadline. -/
def Unexpired (s : Mem) : Prop :=
  ∀ i ∈ path g k, (s.entry .small i).state = .occupied →
    (s.entry .small i).expired s.nowSecs = false

/-- Where the key is: nowhere on its walk, or in one slot of it, in front of any empty slot. -/
def Holder (s : Mem) : Option Nat → Prop
  | none => ∀ i ∈ path g k, ¬ Has g k s i
  | some i => i ∈ path g k ∧ Has g k s i ∧ (∀ j ∈ path g k, Has g k s j → j = i) ∧
      ∀ j ∈ passed (path g k) i, (s.entry .small j).state ≠ .empty

end

variable {g : Config} {k : Bytes} {s s' : Mem}

theorem Entry.expired_mono {e : Entry} {now now' : Nat} (hle : now ≤ now')
    (h : e.expired now' = false) : e.expired now = false := by
  simp only [Entry.expired, Bool.and_eq_false_iff, decide_eq_false_iff_not] at h ⊢
  omega

theorem Has.occupied {i : Nat} (h : Has g k s i) : (s.entry .small i).state = .occupied :=
  (Entry.matches_iff.1 h).1

section
variable {o : Option Nat}

theorem Holder.quiet (hh : Holder g k s o) (hs : s'.entry .small = s.entry .small) :
    Holder g k s' o := by
  cases o with
  | none => simpa [Holder, Has, hs] using hh
  | some i => simpa [Holder, Has, hs] using hh

/-- A call on another key that does not write over the entry of the key leaves it where it is. -/
theorem Holder.other (hh : Holder g k s o) {key : Bytes} {h : Nat} (hne : key ≠ k)
    (he : CallEffect key h s s') (hkeep : ∀ i ∈ path g k, Has g k s i → Has g k s' i) :
    Holder g k s' o := by
  have hhas : ∀ i, Has g k s' i → Has g k s i := fun i hi =>
    (he.slot .small i).matches_of_ne hne hi
  cases o with
  | none => exact fun i hi h => hh i hi (hhas i h)
  | some i =>
    obtain ⟨hi, hhi, huniq, hreach⟩ := hh
    exact ⟨hi, hkeep i hi hhi, fun j hj h => huniq j hj (hhas j h),
      fun j hj => (he.slot .small j).ne_empty (hreach j hj)⟩

end

theorem Holder.mem_of_end {i₀ i : Nat} (hh : Holder g k s (some i₀)) {done rest : List Nat}
    (hpath : path g k = done ++ i :: rest) (hi : (s.entry .small i).state = .empty) :
    i₀ ∈ done ++ [i] := by
  obtain ⟨hi₀, -, -, hreach⟩ := hh
  by_contra hno
  have hno' : i₀ ∉ done ∧ i₀ ≠ i := by simpa using hno
  refine hreach i ?_ hi
  rcases mem_passed_or (w := path g k) (i := i) (j := i₀) (by simp [hpath]) hi₀ with h | h | h
  · exact absurd h.symm hno'.2
  · exact h
  · rw [hpath] at h
    exact absurd (passed_subset h) hno'.1

/-- Writing the key into a slot puts it there, where the slot is the only one that may have it and
is in front of any empty slot. -/
theorem holder_write {i : Nat} {val : Bytes} {expires : Nat} (hk : k.length ≤ KEY_MAX)
    (hi : i ∈ path g k) (hno : ∀ j ∈ path g k, Has g k s j → j = i)
    (hreach : ∀ j ∈ passed (path g k) i, (s.entry .small j).state ≠ .empty) :
    Holder g k (s.write .small i k val (g.hash k) expires) (some i) := by
  refine ⟨hi, by simp [Has, Mem.write, Entry.matches, hk], fun j hj hhas => ?_, fun j hj => ?_⟩
  · by_contra hji
    exact hji (hno j hj (by simpa [Has, Mem.write, hji] using hhas))
  · have hji : j ≠ i := by
      rintro rfl
      exact not_mem_passed hj
    simpa [Mem.write, hji] using hreach j hj

/-! ## Lookup -/

/-- Where a lookup stops: at the key, or at the end of the chain. -/
def stops (r : Region) (key : Bytes) (h : Nat) (s : Mem) (i : Nat) : Bool :=
  (s.entry r i).matches key h || (s.entry r i).state = .empty

/-- What a lookup does on its own: it goes to the first slot that stops it. -/
theorem getScan_run (r : Region) (key : Bytes) (h now : Nat) (w : List Nat) (s : Mem) :
    (getScan r key h now w).run s = match w.find? (stops r key h s) with
      | none => (s, none)
      | some i =>
        if (s.entry r i).matches key h then
          if (s.entry r i).expired now then (s.bury r i, none) else (s, some (s.entry r i).val)
        else (s, none) := by
  induction w with
  | nil => rfl
  | cons i w ih =>
    simp only [getScan, Prog.run_read]
    by_cases hm : (s.entry r i).matches key h = true
    · rw [List.find?_cons_of_pos (by simp [stops, hm])]
      simp only [hm, if_true]
      by_cases hexp : (s.entry r i).expired now = true
      · simp [hexp, hm]
      · simp [hexp]
    · by_cases hempty : (s.entry r i).state = .empty
      · rw [List.find?_cons_of_pos (by simp [stops, hempty])]
        simp [hm, hempty]
      · rw [List.find?_cons_of_neg (by simp [stops, hm, hempty])]
        simp only [hm, hempty, Bool.false_eq_true, if_false]
        exact ih

theorem Holder.find?_stops {i : Nat} (hh : Holder g k s (some i)) :
    (path g k).find? (stops .small k (g.hash k) s) = some i := by
  obtain ⟨hi, hhas, huniq, hreach⟩ := hh
  refine find?_eq_some_iff.2 ⟨hi, by simp [stops, show _ = true from hhas], fun j hj hstop => ?_⟩
  simp only [stops, Bool.or_eq_true, decide_eq_true_eq] at hstop
  rcases hstop with hm | hempty
  · obtain rfl := huniq j (mem_of_mem_passed hj) hm
    exact not_mem_passed hj
  · exact hreach j hj hempty

/-- `get` returns the value of a live entry. -/
theorem Holder.get_run {i : Nat} (hh : Holder g k s (some i))
    (hexp : (s.entry .small i).expired s.nowSecs = false) (hs : g.slots .small ≠ 0) :
    (get g k).run s = (s, some (s.entry .small i).val) := by
  have hm : (s.entry .small i).matches k (g.hash k) = true := hh.2.1
  have hlen : ¬ k.length > KEY_MAX := by
    obtain ⟨-, -, hle, hkey⟩ := Entry.matches_iff.1 hm
    rw [hkey] at hle
    omega
  have hscan : (Region.small.get g k (g.hash k)).run s = (s, some (s.entry .small i).val) := by
    rw [Region.get, if_neg hs, Prog.run_read, getScan_run, hh.find?_stops]
    simp [hm, hexp]
  rw [get, if_neg hlen, Prog.run_bind, hscan]
  rfl

/-! ## One action of `add` and `increment` on their walk -/

section
variable {α β : Type} {r : Region} {key : Bytes} {h : Nat} {hit : Mem → Nat → Mem × α}
  {commit : Option Nat → Prog Mem α} {f : α → β} {i : Nat} {w : List Nat} {pick : Option Nat}

theorem claimScan_next_hit (hm : (s.entry r i).matches key h = true) :
    ((claimScan r key h hit commit (i :: w) pick).map f).next s =
      ((hit s i).1, .ret (f (hit s i).2)) := by
  simp [claimScan, hm]

theorem claimScan_next_end (hm : (s.entry r i).matches key h = false)
    (hempty : (s.entry r i).state = .empty) :
    ((claimScan r key h hit commit (i :: w) pick).map f).next s =
      (s, (commit (pick.or (some i))).map f) := by
  simp [claimScan, hm, hempty]

theorem claimScan_next_on (hm : (s.entry r i).matches key h = false)
    (hempty : (s.entry r i).state ≠ .empty) :
    ((claimScan r key h hit commit (i :: w) pick).map f).next s =
      (s, (claimScan r key h hit commit w
        (if (s.entry r i).state = .occupied then pick else pick.or (some i))).map f) := by
  simp [claimScan, hm, hempty]

end

/-- The callers and the table after a schedule from the table `s`. -/
abbrev after (g : Config) (s : Mem) (es : List (Event Call Nat)) : Pool Mem Call Res :=
  Run.runs (Pool.exec (code g) tick) (Pool.start s) es

/-! ## A table to run things on -/

/-- Sixteen small slots and no large ones. -/
def tiny : Config := .init Ns.bytesHash 16 0

/-- A call outside of any application. -/
def callOn (name : String) (req : Req) : Call := ⟨none, Bytes.ofString name, req⟩

/-- The table after `k2` was set. Its home slot is that of `k3`. -/
def otherSet : Mem := ((code tiny (callOn "k2" (.set [0] 0))).run (.init 0)).1

instance (g : Config) (k : Bytes) (s : Mem) (i : Nat) : Decidable (Has g k s i) :=
  inferInstanceAs (Decidable (_ = true))

instance (g : Config) (k : Bytes) (s : Mem) : Decidable (Unexpired g k s) :=
  inferInstanceAs (Decidable (∀ i ∈ path g k, _ → _))

end Askr.Kv
