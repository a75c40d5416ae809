import Askr.Conc.Seqlock
import Askr.Kv.Slot

/-!
# Reading a slot without its lock

`Region::get` load by load. `peek` samples the version of a slot, loads its fields and the bytes it
needs, and samples the version again; `get` tries that `SEQ_ATTEMPTS` times for each slot of the
window, and then looks under the slot lock. The updates of a slot, `write`, `mark_state` and
`mark_expires`, go store by store under the lock and the version marker. A program that waits for a
lock tries a given number of times; `none` is the result of a call that is still waiting after that.

Run alone, `get` finds what `Region.get` of the table finds (`getSlots_run`, `lookup_eq_get`). The
slot lock is taken to exclude: that a waiter steals it from a caller that is not dead is not
modelled here.
-/

namespace Askr.Kv

open Conc Function List Cells Prog

def SEQ_ATTEMPTS : Nat := 4

/-- A region in shared memory. -/
structure Cache where
  slot : Nat → Raw
  /-- The caller that holds the lock of a slot. -/
  lock : Nat → Option Nat
  /-- How often the version of a slot was stored since the region was mapped. The version itself is
  this number as a `u64`; no program reads it. -/
  marks : Nat → Nat

def Cache.zeroed : Cache := { slot := fun _ _ => 0, lock := fun _ => none, marks := fun _ => 0 }

def Cache.put (s : Cache) (i : Nat) (f : Field) (v : Nat) : Cache :=
  { s with
    slot := update s.slot i (update (s.slot i) f v)
    marks := if f = .version then update s.marks i (s.marks i + 1) else s.marks }

/-- The lock of slot `i` taken or given back. -/
def Cache.setLock (s : Cache) (i : Nat) (o : Option Nat) : Cache :=
  { s with lock := update s.lock i o }

/-! ## Stores and locks -/

def stores (i : Nat) : List (Field × Nat) → Prog Cache Unit
  | [] => .ret ()
  | w :: ws => .atom fun s => (s.put i w.1 w.2, stores i ws)

/-- The stores `ws` while a `Writing` lives. -/
def writing (i : Nat) (ws : List (Field × Nat)) : Prog Cache Unit :=
  .read fun s => stores i (marked (s.slot i .version) ws)

/-- `shmlock::acquire` of a lock that nobody steals, which the caller `me` gives up after the
attempts it is given. -/
def acquire (me i : Nat) : Nat → Prog Cache Bool
  | 0 => .ret false
  | n + 1 => .atom fun s =>
    if s.lock i = none then (s.setLock i (some me), .ret true) else (s, acquire me i n)

def release (i : Nat) : Prog Cache Unit := .atom fun s => (s.setLock i none, .ret ())

/-- `Slot::lock` around a program. -/
def locked {α : Type} (me tries i : Nat) (body : Prog Cache α) : Prog Cache (Option α) :=
  (acquire me i tries).bind fun
    | false => .ret none
    | true => body.bind fun a => (release i).map fun _ => some a

/-! ## Loads -/

/-- The bytes copied out of the front of an array. -/
def copyOut (f : Nat → Field) (n : Nat) : Reads Field Nat Bytes :=
  (Reads.loadAll ((range n).map f)).map fun bs => bs.map UInt8.ofNat

def readMatches (key : Bytes) (h : Nat) : Reads Field Nat Bool :=
  .load .state fun state =>
  if state ≠ 1 then .ret false else
  .load .hash fun hash =>
  if hash ≠ h then .ret false else
  .load .keyLen fun klen =>
  if klen ≠ key.length ∨ klen > KEY_MAX then .ret false else
  (copyOut .key klen).map fun k => decide (k = key)

def readExpired (now : Nat) : Reads Field Nat Bool :=
  .load .expiresAt fun expires => .ret (expires ≠ 0 && expires < now)

def readVal (r : Region) : Reads Field Nat Bytes :=
  .load .valLen fun vlen => copyOut .val (min vlen r.valMax)

/-- The look at a slot with its lock held. -/
def lockedLook (r : Region) (key : Bytes) (h now : Nat) : Reads Field Nat Look :=
  .load .state fun state =>
  if state = 0 then .ret .chainEnd else
  (readMatches key h).bind fun m =>
  if m then
    (readExpired now).bind fun e => if e then .ret .expired else (readVal r).map .hit
  else .ret .other

/-- The loads of `peek` between its two samples of the version, and what it makes of them. -/
def peekLook (r : Region) (key : Bytes) (h now : Nat) : Reads Field Nat Look :=
  .load .state fun state =>
  .load .hash fun hash =>
  .load .keyLen fun klen =>
  .load .expiresAt fun expires =>
  (if state = 1 ∧ hash = h ∧ klen = key.length ∧ klen ≤ KEY_MAX then
    (copyOut .key klen).map fun k => decide (k = key)
  else .ret false).bind fun ours =>
  if ours then
    (readVal r).map fun val => if expires ≠ 0 && expires < now then .expired else .hit val
  else .ret (if state = 0 then .chainEnd else .other)

/-! ## `get` -/

/-- Loads of slot `i`. -/
def atSlot {α : Type} (i : Nat) (p : Reads Field Nat α) : Prog Cache α :=
  p.prog fun s => s.slot i

inductive Peek where
  | torn
  | seen (l : Look)

/-- `peek`: what was loaded is believed only if the version did not move. -/
def peek (r : Region) (i : Nat) (key : Bytes) (h now : Nat) : Prog Cache Peek :=
  .read fun s =>
  if s.slot i .version &&& 1 ≠ 0 then .ret .torn else
  (atSlot i (peekLook r key h now)).bind fun l =>
  .read fun s' => .ret (if s'.slot i .version ≠ s.slot i .version then .torn else .seen l)

/-- The lock-free attempts at one slot. -/
def attempts (r : Region) (i : Nat) (key : Bytes) (h now : Nat) : Nat → Prog Cache Peek
  | 0 => .ret .torn
  | n + 1 => (peek r i key h now).bind fun
    | .torn => attempts r i key h now n
    | .seen l => .ret (.seen l)

/-- One slot of the loop of `get`: the lock-free attempts, then the lock. -/
def lookAt (r : Region) (me tries i : Nat) (key : Bytes) (h now : Nat) : Prog Cache (Option Look) :=
  (attempts r i key h now SEQ_ATTEMPTS).bind fun
    | .seen l => .ret (some l)
    | .torn => locked me tries i (atSlot i (lockedLook r key h now))

/-- An expired entry of the key, looked at again under its lock, is made a tombstone. -/
def reclaim (i : Nat) (key : Bytes) (h now : Nat) : Prog Cache Unit :=
  (atSlot i ((readMatches key h).bind fun m => if m then readExpired now else .ret false)).bind
    fun gone => if gone then writing i [(.state, 2)] else .ret ()

/-- The loop of `get`. A value is returned with the slot it was read from. -/
def getSlots (r : Region) (me tries : Nat) (key : Bytes) (h now : Nat) :
    List Nat → Prog Cache (Option (Option (Nat × Bytes)))
  | [] => .ret (some none)
  | i :: w => (lookAt r me tries i key h now).bind fun
    | none => .ret none
    | some .chainEnd => .ret (some none)
    | some .other => getSlots r me tries key h now w
    | some (.hit v) => .ret (some (some (i, v)))
    | some .expired =>
      (locked me tries i (reclaim i key h now)).map fun o => o.map fun _ => none

/-- `Region::get`, at the time `now`. -/
def Region.getRaw (g : Config) (r : Region) (me tries : Nat) (key : Bytes) (now : Nat) :
    Prog Cache (Option (Option (Nat × Bytes))) :=
  if g.slots r = 0 then .ret (some none)
  else getSlots r me tries key (g.hash key) now (g.window r (g.hash key))

/-! ## What the loads find in a slot that stands still -/

section
variable (raw : Raw) (key : Bytes) (h now : Nat)

@[simp] theorem copyOut_eval (f : Nat → Field) (n : Nat) :
    (copyOut f n).eval raw = bytes raw f n := by
  simp [copyOut, bytes]

@[simp] theorem readMatches_eval : (readMatches key h).eval raw = raw.matches key h := by
  rw [Bool.eq_iff_iff, Raw.matches_iff, readMatches, Reads.eval_load]
  split
  · rename_i hs
    simp [hs]
  rw [Reads.eval_load]
  split
  · rename_i hh
    simp [hh]
  rw [Reads.eval_load]
  split
  · rename_i hs hh hk
    refine iff_of_false (by simp) ?_
    rintro ⟨-, -, hmax, hb⟩
    rcases hk with hk | hk
    · exact hk (by rw [← hb, length_bytes])
    · omega
  · rename_i hs hh hk
    rw [not_or, not_not, Nat.not_lt] at hk
    simp [not_not.1 hs, not_not.1 hh, hk.2]

@[simp] theorem readExpired_eval : (readExpired now).eval raw = raw.expired now := rfl

@[simp] theorem readVal_eval (r : Region) : (readVal r).eval raw = raw.readVal r := by
  simp [readVal, Raw.readVal]

theorem lockedLook_eval (r : Region) :
    (lockedLook r key h now).eval raw = raw.look r key h now := by
  rw [lockedLook, Reads.eval_load, Raw.look]
  split
  · rename_i hs
    have hm : raw.matches key h = false := by simp [Raw.matches, hs]
    simp [hm]
  · rw [Reads.eval_bind, readMatches_eval]
    split
    · rw [Reads.eval_bind, readExpired_eval]
      split <;> simp
    · rfl

theorem peekLook_eval (r : Region) : (peekLook r key h now).eval raw = raw.look r key h now := by
  have hours : (if raw .state = 1 ∧ raw .hash = h ∧ raw .keyLen = key.length ∧
      raw .keyLen ≤ KEY_MAX then (copyOut .key (raw .keyLen)).map fun k => decide (k = key)
      else .ret false).eval raw = raw.matches key h := by
    rw [Bool.eq_iff_iff, Raw.matches_iff]
    split
    · rename_i hc
      simp [hc.1, hc.2.1, hc.2.2.2]
    · rename_i hc
      refine iff_of_false (by simp) ?_
      rintro ⟨hs, hh, hmax, hb⟩
      exact hc ⟨hs, hh, by rw [← hb, length_bytes], hmax⟩
  simp only [peekLook, Reads.eval_load, Reads.eval_bind, hours, Raw.look]
  split
  · simp [Raw.expired]
  · rfl

end

/-! ## Alone -/

section
variable {s : Cache} {i : Nat} (r : Region) (key : Bytes) (h now : Nat)

/-- A peek alone sees what the slot holds, unless a writer died in it. -/
theorem peek_run : (peek r i key h now).run s =
      (s, if s.slot i .version % 2 = 1 then .torn else .seen ((s.slot i).look r key h now)) := by
  rw [peek, run_read, Nat.and_one_is_mod]
  rcases Nat.mod_two_eq_zero_or_one (s.slot i .version) with hv | hv
  · simp [hv, run_bind, atSlot, peekLook_eval]
  · simp [hv]

theorem attempts_run (n : Nat) : (attempts r i key h now (n + 1)).run s =
      (s, if s.slot i .version % 2 = 1 then .torn else .seen ((s.slot i).look r key h now)) := by
  induction n with
  | zero =>
    rw [attempts, run_bind, peek_run]
    by_cases hv : s.slot i .version % 2 = 1 <;> simp [hv, attempts]
  | succ n ih =>
    rw [attempts, run_bind, peek_run]
    by_cases hv : s.slot i .version % 2 = 1
    · simp only [hv, if_true] at ih ⊢
      exact ih
    · simp [hv]

theorem locked_run {α : Type} {me tries : Nat} (ht : 0 < tries) (hi : s.lock i = none)
    (body : Prog Cache α) : (locked me tries i body).run s =
      ((body.run (s.setLock i (some me))).1.setLock i none,
        some (body.run (s.setLock i (some me))).2) := by
  obtain ⟨n, rfl⟩ := Nat.exists_eq_succ_of_ne_zero (Nat.pos_iff_ne_zero.1 ht)
  simp [locked, acquire, hi, run_bind, release]

/-- One slot alone: the lock gives the same look when the version is odd. -/
theorem lookAt_run {me tries : Nat} (ht : 0 < tries) (hi : s.lock i = none) :
    (lookAt r me tries i key h now).run s = (s, some ((s.slot i).look r key h now)) := by
  rw [lookAt, run_bind, SEQ_ATTEMPTS, attempts_run]
  by_cases hv : s.slot i .version % 2 = 1
  · have hlock : (s.setLock i (some me)).setLock i none = s := by
      simp [Cache.setLock, ← hi]
    simp only [hv, if_true]
    rw [locked_run ht hi]
    simp only [atSlot, Reads.run_prog, hlock, lockedLook_eval]
    rfl
  · simp [hv]

/-- What `get` finds in slots that stand still. -/
def lookup (slot : Nat → Raw) : List Nat → Option (Nat × Bytes)
  | [] => none
  | i :: w =>
    match (slot i).look r key h now with
    | .chainEnd => none
    | .expired => none
    | .hit v => some (i, v)
    | .other => lookup slot w

theorem lookup_eq_some {slot : Nat → Raw} {w : List Nat} {i : Nat} {v : Bytes} :
    lookup r key h now slot w = some (i, v) ↔ ∃ w₁ w₂, w = w₁ ++ i :: w₂ ∧
      (∀ j ∈ w₁, (slot j).look r key h now = .other) ∧ (slot i).look r key h now = .hit v := by
  constructor
  · intro hw
    induction w with
    | nil => cases hw
    | cons j w ih =>
      rw [lookup] at hw
      cases hj : (slot j).look r key h now with
      | chainEnd | expired =>
        rw [hj] at hw
        cases hw
      | hit v' =>
        rw [hj] at hw
        cases hw
        exact ⟨[], w, rfl, by simp, hj⟩
      | other =>
        rw [hj] at hw
        obtain ⟨w₁, w₂, rfl, hw₁, hi⟩ := ih hw
        exact ⟨j :: w₁, w₂, rfl, forall_mem_cons.2 ⟨hj, hw₁⟩, hi⟩
  · rintro ⟨w₁, w₂, rfl, hw₁, hi⟩
    induction w₁ with
    | nil => rw [nil_append, lookup, hi]
    | cons j w₁ ih =>
      obtain ⟨hj, hw₁⟩ := forall_mem_cons.1 hw₁
      rw [cons_append, lookup, hj]
      exact ih hw₁

/-- **`get` alone** finds what is there. -/
theorem getSlots_run {me tries : Nat} (ht : 0 < tries) (hfree : ∀ i, s.lock i = none)
    (w : List Nat) :
    ((getSlots r me tries key h now w).run s).2 = some (lookup r key h now s.slot w) := by
  induction w with
  | nil => rfl
  | cons i w ih =>
    rw [getSlots, run_bind, lookAt_run r key h now ht (hfree i), lookup]
    cases hl : (s.slot i).look r key h now with
    | chainEnd => rfl
    | other => exact ih
    | hit v => rfl
    | expired =>
      dsimp only
      rw [run_map, locked_run ht (hfree i)]
      rfl

/-- What `get` finds is what it finds in the table that the memory stands for. -/
theorem lookup_eq_get (slot : Nat → Raw) (S : Mem) (hS : ∀ i, S.entry r i = (slot i).entry r)
    (w : List Nat) :
    ((getScan r key h now w).run S).2 = (lookup r key h now slot w).map Prod.snd := by
  induction w with
  | nil => rfl
  | cons i w ih =>
    rw [getScan, run_read, lookup, Raw.look]
    simp only [hS, Raw.entry_matches, Raw.entry_expired]
    split
    · rename_i hm
      split
      · rfl
      · rfl
    · have hempty : ((slot i).entry r).state = .empty ↔ slot i .state = 0 := stateOf_eq_empty
      by_cases hs : slot i .state = 0
      · rw [if_pos (hempty.2 hs), if_pos hs]
        rfl
      · rw [if_neg (mt hempty.1 hs), if_neg hs]
        exact ih

end

end Askr.Kv
