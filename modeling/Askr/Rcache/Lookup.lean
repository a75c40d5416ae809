import Askr.Rcache.Run

/-!
# The lookup invariant

A live slot must be found by the walk of its own hash: no slot in front of it is empty, and none was
last written for the same hash (`Sound`). It is what `store` needs to replace a page in place, and
it gives one live slot for each hash with no empty slot in front of it (`LookupInv`).

`store`, `peek` and the tombstones of `purge_url` and `ban_glob` keep `Sound`. A sweep that leaves
empty slots, as `flush_app` and the one of `restore`, keeps it exactly when no slot it empties is in
front of a live one it leaves (`Cuts`, `Sound.sweep`, `not_cuts_of_lookupInv`).
-/

namespace Askr.Rcache

open Askr.Ns Probe List Bytes

/-! ## Live slots -/

/-- Slot `i` is live for the hash `h`. -/
def Live (c : Cache) (h i : Nat) : Prop :=
  i < c.slots ∧ (c.entry i).state = .occupied ∧ (c.entry i).keyHash = h

/-- Where a walk for the hash `h` may find the page or has to stop looking for it. -/
def closes (c : Cache) (h i : Nat) : Bool :=
  (c.entry i).state = .empty || (c.entry i).keyHash = h

/-- Every live slot is the first one of its walk that closes it. -/
def Sound (c : Cache) : Prop :=
  ∀ h i, Live c h i → i ∈ c.probe h ∧ ∀ j ∈ passed (c.probe h) i, closes c h j = false

/-- **The lookup invariant.** Each hash has at most one live slot, and the walk from its home slot
gets there before any empty slot. -/
structure LookupInv (c : Cache) : Prop where
  unique : ∀ h i j, Live c h i → Live c h j → i = j
  reached : ∀ h i, Live c h i → Reach (fun j => (c.entry j).state = .empty) (c.probe h) i

variable {c : Cache}

theorem Live.closes {h i : Nat} (hi : Live c h i) : closes c h i = true := by
  simp [Rcache.closes, hi.2.2]

theorem Sound.unique (hc : Sound c) {h i j : Nat} (hi : Live c h i) (hj : Live c h j) : i = j := by
  obtain ⟨hmi, hpi⟩ := hc h i hi
  obtain ⟨hmj, hpj⟩ := hc h j hj
  rcases mem_passed_or hmi hmj with h' | h' | h'
  · exact h'
  · exact absurd hi.closes (by simp [hpj i h'])
  · exact absurd hj.closes (by simp [hpi j h'])

theorem Sound.lookupInv (hc : Sound c) : LookupInv c where
  unique _ _ _ hi hj := hc.unique hi hj
  reached h i hi := by
    obtain ⟨hm, hp⟩ := hc h i hi
    refine (reach_iff_passed hm).2 fun j hj hempty => ?_
    simpa [Rcache.closes, hempty] using hp j hj

theorem sound_init (slots : Nat) : Sound (.init slots) := fun h i hi => by
  simp [Live, Cache.init, Entry.zeroed] at hi

/-! ## The walk of `peek` -/

theorem Sound.find?_ends (hc : Sound c) {h i : Nat} (hi : Live c h i) :
    (c.probe h).find? (ends c h) = some i := by
  obtain ⟨hm, hp⟩ := hc h i hi
  refine find?_eq_some_iff.2 ⟨hm, by simp [ends, hi.2.1, hi.2.2], fun j hj hend => ?_⟩
  have hcl := hp j hj
  simp only [closes, Bool.or_eq_false_iff, decide_eq_false_iff_not] at hcl
  simp [ends, hcl.1, hcl.2] at hend

theorem peekIn_of_not_live {h : Nat} (hn : ∀ i, ¬ Live c h i) (now : Nat) :
    peekIn c h now (c.probe h) = (c, none) := by
  rw [peekIn_eq]
  cases hf : (c.probe h).find? (ends c h) with
  | none => rfl
  | some i =>
    have hend := find?_some hf
    have hlt := Cache.lt_of_mem_probe (mem_of_find?_eq_some hf)
    have hst : (c.entry i).state = .empty := by
      simp only [ends, Bool.or_eq_true, Bool.and_eq_true, decide_eq_true_eq] at hend
      exact hend.resolve_right fun h' => hn i ⟨hlt, h'⟩
    simp [hst]

theorem Sound.peekIn_live (hc : Sound c) {h i : Nat} (hi : Live c h i) (now : Nat) :
    peekIn c h now (c.probe h) =
      if (c.entry i).expired now || (c.entry i).tagInvalid c.tag then (c.mark i .tombstone, none)
      else (c, some i) := by
  rw [peekIn_eq, hc.find?_ends hi]
  simp [hi.2.1]

/-! ## State words -/

/-- Writing state words keeps soundness, if no slot is brought to life and no chain of a slot that
stays live is cut. -/
theorem Sound.of_states {c c' : Cache} (hc : Sound c) (hslots : c'.slots = c.slots)
    (hkey : ∀ i < c.slots, (c'.entry i).keyHash = (c.entry i).keyHash)
    (hocc : ∀ i < c.slots, (c'.entry i).state = .occupied → (c.entry i).state = .occupied)
    (hcut : ∀ h i, Live c' h i → ∀ j ∈ passed (c.probe h) i, (c'.entry j).state = .empty →
      (c.entry j).state = .empty) : Sound c' := by
  have hprobe : ∀ h, c'.probe h = c.probe h := fun h => by rw [Cache.probe, Cache.probe, hslots]
  intro h i hi
  have hlt : i < c.slots := hslots ▸ hi.1
  obtain ⟨hm, hp⟩ := hc h i ⟨hlt, hocc i hlt hi.2.1, by rw [← hkey i hlt, hi.2.2]⟩
  rw [hprobe]
  refine ⟨hm, fun j hj => ?_⟩
  have hcl := hp j hj
  simp only [closes, Bool.or_eq_false_iff, decide_eq_false_iff_not,
    hkey j (Cache.lt_of_mem_probe (mem_of_mem_passed hj))] at hcl ⊢
  exact ⟨fun hemp => hcl.1 (hcut h i hi j hj hemp), hcl.2⟩

theorem Sound.peek {c : Cache} (hc : Sound c) (hasher : Hasher) (key : Bytes) (now : Nat) :
    Sound (peek hasher c key now).1 := by
  simp only [Rcache.peek, peekSlot]
  rcases peekIn_table c (hashBytes hasher key) now (c.probe (hashBytes hasher key)) with
    h | ⟨k, -, h, -⟩
  · rwa [h]
  · rw [h]
    refine hc.of_states rfl (fun i _ => ?_) (fun i _ => ?_) (fun h i _ j _ => ?_)
    · by_cases hik : i = k <;> simp [hik]
    · by_cases hik : i = k <;> simp [hik]
    · by_cases hjk : j = k <;> simp [hjk]

/-- A sweep cuts a chain: it empties a slot in front of a live one that it leaves. -/
def Cuts (c : Cache) (m : Entry → Option SlotState) : Prop :=
  ∃ h i, Live c h i ∧ m (c.entry i) = none ∧
    ∃ j ∈ passed (c.probe h) i, m (c.entry j) = some .empty

theorem live_sweep {c : Cache} {m : Entry → Option SlotState} (hm : ∀ e, m e ≠ some .occupied)
    {h i : Nat} : Live (c.sweep m).1 h i ↔ Live c h i ∧ m (c.entry i) = none := by
  constructor
  · rintro ⟨hlt, hocc, hk⟩
    rw [Cache.sweep_slots] at hlt
    rw [c.sweep_entry m hlt] at hocc hk
    cases hmi : m (c.entry i) with
    | none => exact ⟨⟨hlt, by simpa [hmi] using hocc, hk⟩, rfl⟩
    | some st =>
      obtain rfl : st = .occupied := by simpa [hmi] using hocc
      exact absurd hmi (hm _)
  · rintro ⟨⟨hlt, hocc, hk⟩, hmi⟩
    refine ⟨by rwa [Cache.sweep_slots], ?_⟩
    rw [c.sweep_entry m hlt, hmi]
    exact ⟨hocc, hk⟩

theorem sweep_entry_left {c : Cache} {m : Entry → Option SlotState} {i : Nat} (hi : i < c.slots)
    (hmi : m (c.entry i) = none) : (c.sweep m).1.entry i = c.entry i := by
  rw [c.sweep_entry m hi, hmi]
  rfl

theorem Sound.sweep {c : Cache} (hc : Sound c) {m : Entry → Option SlotState}
    (hm : ∀ e, m e ≠ some .occupied) (hcut : ¬ Cuts c m) : Sound (c.sweep m).1 := by
  refine hc.of_states (c.sweep_slots m) (fun i hi => by rw [c.sweep_entry m hi])
    (fun i hi hocc => ?_) (fun h i hi j hj hemp => ?_)
  · exact ((live_sweep hm).1 ⟨by rwa [Cache.sweep_slots], hocc, rfl⟩).1.2.1
  · obtain ⟨hlive, hnone⟩ := (live_sweep hm).1 hi
    rw [c.sweep_entry m (Cache.lt_of_mem_probe (mem_of_mem_passed hj))] at hemp
    cases hmj : m (c.entry j) with
    | none => simpa [hmj] using hemp
    | some st =>
      obtain rfl : st = .empty := by simpa [hmj] using hemp
      exact absurd ⟨h, i, hlive, hnone, j, hj, hmj⟩ hcut

theorem not_cuts_of_lookupInv {c : Cache} {m : Entry → Option SlotState}
    (hm : ∀ e, m e ≠ some .occupied) (h : LookupInv (c.sweep m).1) : ¬ Cuts c m := by
  rintro ⟨k, i, hlive, hnone, j, hj, hmj⟩
  have hreach := h.reached k i ((live_sweep hm).2 ⟨hlive, hnone⟩)
  rw [Cache.probe_sweep] at hreach
  refine (reach_iff_passed hreach.mem).1 hreach j hj ?_
  rw [c.sweep_entry m (Cache.lt_of_mem_probe (mem_of_mem_passed hj)), hmj]
  rfl

/-! ## Store -/

/-- The slot `store` takes: no slot in front of it closes the walk, and it closes the walk itself
unless nothing does. -/
theorem storeIn_spec (c : Cache) (h : Nat) (w : List Nat) (reuse target : Option Nat) :
    let r := storeIn c h w reuse target
    (closes c h r ∧ Reach (fun j => closes c h j) w r) ∨
      (∀ j ∈ w, closes c h j = false) ∧
        (r ∈ w ∨ reuse = some r ∨ target = some r ∨ (w = [] ∧ reuse = none ∧ target = none)) := by
  induction w generalizing reuse target with
  | nil => cases reuse <;> cases target <;> simp [storeIn]
  | cons i w ih =>
    by_cases hcl : (c.entry i).state = .empty ∨ (c.entry i).keyHash = h
    · simp only [storeIn, if_pos hcl]
      exact .inl ⟨by simpa [closes] using hcl, reach_head⟩
    · have hcl' : closes c h i = false := by simpa [closes, not_or] using hcl
      simp only [storeIn, if_neg hcl]
      split
      · rcases ih (reuse.or (some i)) target with ⟨h1, h2⟩ | ⟨h1, h2⟩
        · exact .inl ⟨h1, reach_cons.2 (.inr ⟨by simp [hcl'], h2⟩)⟩
        · refine .inr ⟨by simpa [hcl'] using h1, ?_⟩
          cases reuse <;> simp_all <;> grind
      · rcases ih reuse (target.or (some i)) with ⟨h1, h2⟩ | ⟨h1, h2⟩
        · exact .inl ⟨h1, reach_cons.2 (.inr ⟨by simp [hcl'], h2⟩)⟩
        · refine .inr ⟨by simpa [hcl'] using h1, ?_⟩
          cases target <;> simp_all <;> grind

theorem storeSlot_spec (hasher : Hasher) (c : Cache) (key : Bytes) :
    storeSlot hasher c key ∈ c.probe (hashBytes hasher key) ∧
      (∀ j ∈ passed (c.probe (hashBytes hasher key)) (storeSlot hasher c key),
        closes c (hashBytes hasher key) j = false) ∧
      (closes c (hashBytes hasher key) (storeSlot hasher c key) ∨
        ∀ j ∈ c.probe (hashBytes hasher key), closes c (hashBytes hasher key) j = false) := by
  rcases storeIn_spec c (hashBytes hasher key) (c.probe (hashBytes hasher key)) none none with
    ⟨hcl, hr⟩ | ⟨hno, hmem⟩
  · exact ⟨hr.mem, fun j hj => by simpa using (reach_iff_passed hr.mem).1 hr j hj, .inl hcl⟩
  · have hmem' : storeSlot hasher c key ∈ c.probe (hashBytes hasher key) := by
      rcases hmem with h | h | h | ⟨h, -⟩
      · exact h
      · cases h
      · cases h
      · simp [Cache.probe, window, PROBE] at h
    exact ⟨hmem', fun j hj => hno j (mem_of_mem_passed hj), .inr hno⟩

theorem Sound.storeSlot_live {c : Cache} (hc : Sound c) {hasher : Hasher} {key : Bytes} {i : Nat}
    (hi : Live c (hashBytes hasher key) i) : storeSlot hasher c key = i := by
  obtain ⟨hm, hp, hcl⟩ := storeSlot_spec hasher c key
  obtain ⟨hmi, hpi⟩ := hc _ i hi
  rcases mem_passed_or hm hmi with h | h | h
  · exact h
  · rcases hcl with hcl | hno
    · exact absurd hcl (by simp [hpi _ h])
    · exact absurd hi.closes (by simp [hno i hmi])
  · exact absurd hi.closes (by simp [hp i h])

theorem Sound.store {c : Cache} (hc : Sound c) (hasher : Hasher) (key : Bytes) (page : Page)
    (now : Nat) : Sound (store hasher c key page now).1 := by
  rw [Rcache.store]
  split
  swap
  · exact hc
  obtain ⟨hm, hp, -⟩ := storeSlot_spec hasher c key
  rintro h i ⟨hlt, hocc, hk⟩
  simp only [Cache.probe_set, Cache.set_entry] at hocc hk ⊢
  by_cases hi : i = storeSlot hasher c key
  · subst hi
    rw [Function.update_self] at hk
    obtain rfl : hashBytes hasher key = h := hk
    refine ⟨hm, fun j hj => ?_⟩
    have hj' : j ≠ storeSlot hasher c key := by
      rintro rfl
      exact not_mem_passed hj
    simpa [closes, hj'] using hp j hj
  · rw [Function.update_of_ne hi] at hocc hk
    have hlive : Live c h i := ⟨hlt, hocc, hk⟩
    obtain ⟨hmi, hpi⟩ := hc h i hlive
    refine ⟨hmi, fun j hj => ?_⟩
    by_cases hj' : j = storeSlot hasher c key
    · have hne : hashBytes hasher key ≠ h := by
        rintro rfl
        exact hi (hc.storeSlot_live hlive).symm
      simp [closes, hj', writeEntry, hne]
    · simpa [closes, hj'] using hpi j hj

/-! ## Flushing one application -/

theorem flushApp_entry {c : Cache} {a : App} {i : Nat} (hi : i < c.slots) : (flushApp c a).entry i =
      if (c.entry i).app = some a then { c.entry i with state := .empty } else c.entry i := by
  rw [flushApp, Cache.sweep_entry _ _ hi, dropApp]
  split <;> rfl

theorem peekSlot_flushApp_owner {hasher : Hasher} {c : Cache} {a : App} {key : Bytes} {now i : Nat}
    (hi : (peekSlot hasher (flushApp c a) key now).2 = some i) :
    (c.entry i).app ≠ some a ∧ (flushApp c a).entry i = c.entry i := by
  obtain ⟨hf, hocc, -⟩ := peekIn_hit_iff.1 hi
  have hlt : i < (flushApp c a).slots := Cache.lt_of_mem_probe (mem_of_find?_eq_some hf)
  rw [flushApp, Cache.sweep_slots] at hlt
  rw [flushApp_entry hlt] at hocc ⊢
  split at hocc
  · cases hocc
  · rename_i ha
    exact ⟨ha, if_neg ha⟩

/-- A walk that served a slot of another owner serves it after the flush exactly when the flushed
application was not the last to write a slot in front of it. -/
theorem peekSlot_flushApp {hasher : Hasher} {c : Cache} {a : App} {key : Bytes} {now i : Nat}
    (hi : (peekSlot hasher c key now).2 = some i) (ha : (c.entry i).app ≠ some a) :
    (peekSlot hasher (flushApp c a) key now).2 =
      if ∀ j ∈ passed (c.probe (hashBytes hasher key)) i, (c.entry j).app ≠ some a then some i
      else none := by
  obtain ⟨hf, hocc, hexp, htag⟩ := peekIn_hit_iff.1 hi
  obtain ⟨hm, hend, hp⟩ := find?_eq_some_iff.1 hf
  have hprobe : (flushApp c a).probe (hashBytes hasher key) = c.probe (hashBytes hasher key) :=
    c.probe_sweep _ _
  have hei : (flushApp c a).entry i = c.entry i := by
    rw [flushApp_entry (Cache.lt_of_mem_probe hm), if_neg ha]
  split
  · rename_i hfree
    refine peekIn_hit_iff.2 ⟨?_, by rwa [hei], by rwa [hei], ?_⟩
    · rw [hprobe]
      refine find?_eq_some_iff.2 ⟨hm, by rwa [ends, hei, ← ends], fun j hj => ?_⟩
      have hej : (flushApp c a).entry j = c.entry j := by
        rw [flushApp_entry (Cache.lt_of_mem_probe (mem_of_mem_passed hj)), if_neg (hfree j hj)]
      rw [ends, hej, ← ends]
      exact hp j hj
    · rw [hei, flushApp, Cache.sweep_tag]
      exact htag
  · rename_i hcut
    simp only [not_forall, Decidable.not_not] at hcut
    obtain ⟨j, hj, hja⟩ := hcut
    refine Option.eq_none_iff_forall_ne_some.2 fun x hx => ?_
    obtain ⟨-, hex⟩ := peekSlot_flushApp_owner hx
    obtain ⟨hfx, -⟩ := peekIn_hit_iff.1 hx
    rw [hprobe] at hfx
    obtain ⟨hmx, hendx, hpx⟩ := find?_eq_some_iff.1 hfx
    have hempty : ends (flushApp c a) (hashBytes hasher key) j = true := by
      rw [ends, flushApp_entry (Cache.lt_of_mem_probe (mem_of_mem_passed hj)), if_pos hja]
      simp
    rcases mem_passed_or hmx hm with rfl | h | h
    · exact hpx j hj hempty
    · rw [ends, hex, ← ends] at hendx
      exact hp x h hendx
    · refine hpx i h ?_
      rwa [ends, hei, ← ends]

/-- **What `flush_app` removes.** A page of another owner that was served before is served unchanged
afterwards exactly when no slot in front of it was last written by the flushed application; and no
page of the flushed application is served. -/
theorem flushApp_exact (hasher : Hasher) (c : Cache) (a : App) (now : Nat) :
    (∀ key i, (peekSlot hasher c key now).2 = some i → (c.entry i).app ≠ some a →
      ((peek hasher (flushApp c a) key now).2 = (peek hasher c key now).2 ↔
        ∀ j ∈ passed (c.probe (hashBytes hasher key)) i, (c.entry j).app ≠ some a)) ∧
      ∀ key i, (peekSlot hasher (flushApp c a) key now).2 = some i →
        ((flushApp c a).entry i).app ≠ some a := by
  refine ⟨fun key i hi ha => ?_, fun key i hi => ?_⟩
  · have hlt : i < c.slots := by
      obtain ⟨hf, -⟩ := peekIn_hit_iff.1 hi
      exact Cache.lt_of_mem_probe (mem_of_find?_eq_some hf)
    simp only [peek, hi, peekSlot_flushApp hi ha]
    split
    · rename_i hfree
      exact ⟨fun _ => hfree, fun _ => by simp [flushApp_entry hlt, ha]⟩
    · rename_i hcut
      simp [hcut]
  · obtain ⟨ha, he⟩ := peekSlot_flushApp_owner hi
    rwa [he]

/-! ## A flush that drops another application's page -/

/-- Two applications. -/
def appA : App := ⟨replicate 16 97, by decide, by decide⟩
def appB : App := ⟨replicate 16 98, by decide, by decide⟩

def pageOf (app : App) (body : String) : Page :=
  { status := 200, headers := [], body := ofString body, ttl := 0, swr := 0, sie := 0,
    tags := [], app := some app }

/-- Two keys with one home slot in a table of sixteen, the first stored by `appA`. -/
def collidingStores : List Op :=
  [.store (ofString "k2") (pageOf appA "a") 0,
    .store (ofString "k3") (pageOf appB "b") 0]

/-- A flush of `appB` finds the page of `appA` in front of its own, and leaves it. -/
theorem flushApp_exact_leaves_front : let c := Run.runs (step bytesHash) (.init 16) collidingStores
    (peekSlot bytesHash c (ofString "k2") 0).2 = some 14 ∧
      (peek bytesHash (flushApp c appB) (ofString "k2") 0).2 =
        (peek bytesHash c (ofString "k2") 0).2 := by
  have hhit : (peekSlot bytesHash (Run.runs (step bytesHash) (.init 16) collidingStores)
      (ofString "k2") 0).2 = some 14 := by decide
  exact ⟨hhit, ((flushApp_exact bytesHash _ appB 0).1 _ 14 hhit (by decide)).2
    (by decide)⟩

/-- A flush as one would have it: the pages of every other owner stay, those of the application
go. -/
def FlushAppExact (hasher : Hasher) : Prop :=
  ∀ (slots : Nat) (ops : List Op) (a : App) (now : Nat),
    let c := Run.runs (step hasher) (.init slots) ops
    (∀ key i, (peekSlot hasher c key now).2 = some i → (c.entry i).app ≠ some a →
      (peek hasher (flushApp c a) key now).2 = (peek hasher c key now).2) ∧
      ∀ key i, (peekSlot hasher (flushApp c a) key now).2 = some i →
        ((flushApp c a).entry i).app ≠ some a

/-- **A flush drops another application's page.** The page of `appA` is in front of that of `appB`
in their common window, and the empty slot its flush leaves ends the lookup of the other. -/
theorem flushApp_drops_other_page : ¬ FlushAppExact bytesHash := by
  intro h
  have hgone : (peekSlot bytesHash
      (flushApp (Run.runs (step bytesHash) (.init 16) collidingStores) appA)
      (ofString "k3") 0).2 = none := by decide
  have hhit : (peekSlot bytesHash (Run.runs (step bytesHash) (.init 16) collidingStores)
      (ofString "k3") 0).2 = some 15 := by decide
  have heq := (h 16 collidingStores appA 0).1 (ofString "k3") 15 hhit (by decide +kernel)
  simp only [peek, hgone, hhit] at heq
  cases heq

end Askr.Rcache
