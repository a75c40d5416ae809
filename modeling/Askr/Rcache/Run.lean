import Askr.Conc.Run
import Askr.Rcache.Table

/-!
# Runs of the response cache

A run is a list of operations on the table, one after the other, each with the clock it reads.
`get` and `stale_on_error` do to the table what `peek` does, so `peek` stands for the three. A
restart is `dump`, a fresh mapping of any size, and `restore` of the file under any stamp; the file
may also be missing.

Only `store` brings a slot to life, and it writes one slot (`Op.writes`): every other slot keeps its
contents, up to its state word, through every operation (`step_keeps`).
-/

namespace Askr.Rcache

open Askr.Ns List

/-- One operation on the response cache. -/
inductive Op where
  | store (key : Bytes) (page : Page) (now : Nat)
  | peek (key : Bytes) (now : Nat)
  | forgetTag (tag : Bytes)
  | purgeUrl (host path : Bytes) (query : Option Bytes)
  | banGlob (host pattern : Bytes)
  | flushApp (app : App)
  | flushAll
  | restart (slots : Nat) (saved : Bool) (stamp stamp' now : Nat)

/-- `dump` and then `restore` into a fresh table. -/
def restart (c : Cache) (slots : Nat) (saved : Bool) (stamp stamp' now : Nat) : Cache :=
  (restore (.init slots) (if saved then some (dump c stamp) else none) stamp' now).1

/-- What one operation does to the table. -/
def step (hasher : Hasher) (c : Cache) : Op → Cache
  | .store key page now => (store hasher c key page now).1
  | .peek key now => (peek hasher c key now).1
  | .forgetTag tag => forgetTag hasher c tag
  | .purgeUrl host path query => (purgeUrl c host path query).1
  | .banGlob host pattern => (banGlob c host pattern).1
  | .flushApp app => flushApp c app
  | .flushAll => flushAll c
  | .restart slots saved stamp stamp' now => restart c slots saved stamp stamp' now

/-- The slot an operation writes an entry into. -/
def Op.writes (hasher : Hasher) (c : Cache) : Op → Option Nat
  | .store key page _ => if page.fits then some (storeSlot hasher c key) else none
  | _ => none

/-! ## The walk of `peek` -/

/-- Where the walk of `peek` ends. -/
def ends (c : Cache) (h i : Nat) : Bool :=
  (c.entry i).state = .empty || ((c.entry i).state = .occupied && (c.entry i).keyHash = h)

/-- **What `peek` does**, in one equation: it goes to the first slot that ends its walk, and serves
it or makes it a tombstone. -/
theorem peekIn_eq (c : Cache) (h now : Nat) (w : List Nat) :
    peekIn c h now w = match w.find? (ends c h) with
      | none => (c, none)
      | some i =>
        if (c.entry i).state = .empty then (c, none)
        else if (c.entry i).expired now || (c.entry i).tagInvalid c.tag then
          (c.mark i .tombstone, none)
        else (c, some i) := by
  fun_induction peekIn c h now w with
  | case1 => rfl
  | case2 i w hst => simp [ends, hst]
  | case3 i w hst ih => simpa [ends, hst] using ih
  | case4 i w hst hk ih =>
    rw [ih, find?_cons_of_neg]
    simp [ends, hst, hk]
  | case5 i w hst hk hexp =>
    rw [find?_cons_of_pos (by simpa [ends, hst] using hk)]
    simp [hst, hexp]
  | case6 i w hst hk hexp htag =>
    rw [find?_cons_of_pos (by simpa [ends, hst] using hk)]
    simp [hst, htag]
  | case7 i w hst hk hexp htag =>
    rw [find?_cons_of_pos (by simpa [ends, hst] using hk)]
    simp [hst, hexp, htag]

theorem peekIn_hit_iff {c : Cache} {h now i : Nat} {w : List Nat} :
    (peekIn c h now w).2 = some i ↔ w.find? (ends c h) = some i ∧
      (c.entry i).state = .occupied ∧ (c.entry i).expired now = false ∧
      (c.entry i).tagInvalid c.tag = false := by
  rw [peekIn_eq]
  cases hf : w.find? (ends c h) with
  | none => simp
  | some j =>
    have hend := find?_some hf
    simp only [ends, Bool.or_eq_true, Bool.and_eq_true, decide_eq_true_eq] at hend
    by_cases hempty : (c.entry j).state = .empty
    · simp only [hempty, if_true, Option.some.injEq]
      constructor
      · intro h'
        cases h'
      · rintro ⟨rfl, hocc, -⟩
        simp [hempty] at hocc
    · obtain ⟨hocc, -⟩ := hend.resolve_left hempty
      by_cases hval : (c.entry j).expired now || (c.entry j).tagInvalid c.tag
      · simp only [hempty, hval, if_false, if_true, Option.some.injEq]
        constructor
        · intro h'
          cases h'
        · rintro ⟨rfl, -, hexp, htag⟩
          simp [hexp, htag] at hval
      · simp only [hempty, hval, if_false, Bool.false_eq_true, Option.some.injEq]
        simp only [Bool.or_eq_true, not_or, Bool.not_eq_true] at hval
        constructor
        · rintro rfl
          exact ⟨rfl, hocc, hval⟩
        · exact fun h' => h'.1

/-- What `peek` does to the table: nothing, or it makes a tombstone of a live slot of the hash, one
that is expired or invalidated. -/
theorem peekIn_table (c : Cache) (h now : Nat) (w : List Nat) :
    (peekIn c h now w).1 = c ∨ ∃ i ∈ w, (peekIn c h now w).1 = c.mark i .tombstone ∧
      (peekIn c h now w).2 = none ∧ (c.entry i).state = .occupied ∧ (c.entry i).keyHash = h ∧
      ((c.entry i).expired now ∨ (c.entry i).tagInvalid c.tag) := by
  rw [peekIn_eq]
  split
  · exact .inl rfl
  · rename_i i hf
    have hend := find?_some hf
    simp only [ends, Bool.or_eq_true, Bool.and_eq_true, decide_eq_true_eq] at hend
    split
    · exact .inl rfl
    · rename_i hne
      split
      · rename_i hval
        obtain ⟨hocc, hkey⟩ := hend.resolve_left hne
        exact .inr ⟨i, mem_of_find?_eq_some hf, rfl, rfl, hocc, hkey, by simpa using hval⟩
      · exact .inl rfl

/-! ## What an operation does to a slot -/

/-- A slot `e'` that holds what `e` held, if it is still live. -/
def Entry.Keeps (e e' : Entry) : Prop := e'.state = .occupied → e' = e

theorem Entry.Keeps.refl (e : Entry) : e.Keeps e := fun _ => rfl

theorem Entry.keeps_of_ne {e e' : Entry} (h : e'.state ≠ .occupied) : e.Keeps e' :=
  fun h' => absurd h' h

theorem Cache.mark_keeps (c : Cache) (j : Nat) {st : SlotState} (hst : st ≠ .occupied) (i : Nat) :
    (c.entry i).Keeps ((c.mark j st).entry i) := by
  by_cases hij : i = j
  · subst hij
    exact Entry.keeps_of_ne (by simpa using hst)
  · rw [Cache.mark_entry, Function.update_of_ne hij]
    exact .refl _

theorem Cache.sweep_keeps (c : Cache) {m : Entry → Option SlotState}
    (hm : ∀ e, m e ≠ some .occupied) (i : Nat) : (c.entry i).Keeps ((c.sweep m).1.entry i) := by
  rcases Nat.lt_or_ge i c.slots with hi | hi
  · rw [c.sweep_entry m hi]
    cases hmi : m (c.entry i) with
    | none => exact .refl _
    | some st =>
      refine Entry.keeps_of_ne ?_
      rintro rfl
      exact hm _ hmi
  · rw [c.sweep_entry_ge m hi]
    exact .refl _

theorem dropApp_ne (app : App) (e : Entry) : dropApp app e ≠ some .occupied := by
  unfold dropApp
  split <;> simp

theorem buryWanted_ne (want : Bytes → Bool) (e : Entry) : buryWanted want e ≠ some .occupied := by
  unfold buryWanted
  split <;> simp

theorem dropExpired_ne (now : Nat) (e : Entry) : dropExpired now e ≠ some .occupied := by
  unfold dropExpired
  split <;> simp

/-- Does a restart find the dump it wrote, and accept it? -/
def restores (c : Cache) (slots : Nat) (saved : Bool) (stamp stamp' : Nat) : Bool :=
  saved && (dump c stamp).accepted (.init slots) stamp'

theorem restart_eq (c : Cache) (slots : Nat) (saved : Bool) (stamp stamp' now : Nat) :
    restart c slots saved stamp stamp' now =
      if restores c slots saved stamp stamp' then (c.sweep (dropExpired now)).1
      else .init slots := by
  unfold restart restore restores
  cases saved with
  | false => rfl
  | true =>
    simp only [if_true, Bool.true_and]
    split
    · rename_i hacc
      have hslots : c.slots = (Cache.init slots).slots := by
        simp only [Dump.accepted, dump, Bool.and_eq_true, beq_iff_eq] at hacc
        exact hacc.1.1.2
      obtain ⟨n, hn, e, t⟩ := c
      obtain rfl : n = max slots 16 := hslots
      rfl
    · rfl

/-- **Only a store brings a slot to life.** A slot an operation does not write an entry into holds
afterwards what it held before, if it is live at all. -/
theorem step_keeps (hasher : Hasher) (c : Cache) (op : Op) {i : Nat}
    (hi : op.writes hasher c ≠ some i) : (c.entry i).Keeps ((step hasher c op).entry i) := by
  cases op with
  | store key page now =>
    simp only [Op.writes] at hi
    simp only [step, store]
    split
    · rename_i hfit
      have hne : i ≠ storeSlot hasher c key := by
        rintro rfl
        exact hi (if_pos hfit)
      rw [Cache.set_entry, Function.update_of_ne hne]
      exact .refl _
    · exact .refl _
  | peek key now =>
    simp only [step, peek, peekSlot]
    rcases peekIn_table c (hashBytes hasher key) now (c.probe (hashBytes hasher key)) with
      h | ⟨j, -, h, -⟩
    · rw [h]
      exact .refl _
    · rw [h]
      exact c.mark_keeps j (by decide) i
  | forgetTag tag => exact .refl _
  | purgeUrl host path query => exact c.sweep_keeps (buryWanted_ne _) i
  | banGlob host pattern => exact c.sweep_keeps (buryWanted_ne _) i
  | flushApp app => exact c.sweep_keeps (dropApp_ne app) i
  | flushAll => exact c.sweep_keeps (by simp) i
  | restart slots saved stamp stamp' now =>
    simp only [step]
    rw [restart_eq]
    split
    · exact c.sweep_keeps (dropExpired_ne now) i
    · exact Entry.keeps_of_ne (by simp [Cache.init, Entry.zeroed])

end Askr.Rcache
