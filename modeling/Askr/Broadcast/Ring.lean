import Askr.Conc.Seqlock
import Askr.Data.Cells
import Askr.Shm

/-!
# The broadcast ring

`publish`, `current_seq` and `read_from` of `broadcast.rs` on a mapped ring, load by load and store
by store. A publish takes the next number, and writes its event to the slot of that number: the
marker `seq` goes to 0 first and to the number last. A poll goes through the numbers after its
cursor up to the newest one, and takes the events whose marker is the number before and after it
copied them.

A call returns the numbers along with what the source returns. The counter is a word that wraps, and
`Ring.Unspent` says that it is not at its last number.
-/

namespace Askr.Broadcast

open Conc Function Cells List

def CHAN_MAX : Nat := 64
def PAYLOAD_MAX : Nat := 3072
def RING_SLOTS : Nat := 1024

inductive Field where
  | seq
  | chanLen
  | payloadLen
  | chan (j : Nat)
  | payload (j : Nat)
deriving DecidableEq

/-- An event: its channel and its payload. -/
abbrev Delivered := Bytes × Bytes

/-- The ring in shared memory, with two records of what was done to it that no program reads. -/
structure Ring where
  writeSeq : Nat
  slot : Nat → Field → Nat
  /-- The publishes that have made a store to their slot and are not committed. -/
  inside : List Nat
  /-- The events that were committed, newest first, with their numbers. -/
  log : List (Nat × Delivered)

def Ring.zeroed : Ring := { writeSeq := 0, slot := fun _ _ => 0, inside := [], log := [] }

/-- One store to slot `i`. -/
def Ring.put (r : Ring) (i : Nat) (f : Field) (v : Nat) : Ring :=
  { r with slot := update r.slot i (update (r.slot i) f v) }

/-- Is there a number to be taken before the counter comes round? -/
def Ring.Unspent (r : Ring) : Prop := r.writeSeq + 1 < U64

instance (r : Ring) : Decidable r.Unspent := inferInstanceAs (Decidable (_ < _))

theorem Ring.Unspent.next {r : Ring} (h : r.Unspent) : u64Add r.writeSeq 1 = r.writeSeq + 1 :=
  Nat.mod_eq_of_lt h

/-- The slot of a number, `(seq - 1) % RING_SLOTS` with a subtraction that wraps. -/
def slotOf (seq : Nat) : Nat := (if seq = 0 then U64 - 1 else seq - 1) % RING_SLOTS

/-! ## Publishing -/

/-- The stores of a publish between its two stores to the marker. -/
def fill (e : Delivered) : List (Field × Nat) :=
  (.chanLen, e.1.length) :: (.payloadLen, e.2.length) ::
    (copy .chan e.1 ++ copy .payload e.2)

/-- The stores that are left, and the commit. -/
def storing (seq : Nat) (e : Delivered) : List (Field × Nat) → Prog Ring (Option Nat)
  | [] => .atom fun r =>
    ({ r.put (slotOf seq) .seq seq with
        inside := r.inside.filter (· ≠ seq), log := (seq, e) :: r.log }, .ret (some seq))
  | w :: ws => .atom fun r => (r.put (slotOf seq) w.1 w.2, storing seq e ws)

/-- The publish `seq` marks its slot as in progress, and goes on. -/
def entering (seq : Nat) (e : Delivered) : Prog Ring (Option Nat) :=
  .atom fun r =>
    ({ r.put (slotOf seq) .seq 0 with inside := seq :: r.inside }, storing seq e (fill e))

def publish (e : Delivered) : Prog Ring (Option Nat) :=
  if e.1.length > CHAN_MAX ∨ e.2.length > PAYLOAD_MAX then .ret none
  else .atom fun r => ({ r with writeSeq := u64Add r.writeSeq 1 }, entering (u64Add r.writeSeq 1) e)

/-! ## Reading -/

def currentSeq : Prog Ring Nat := .read fun r => .ret r.writeSeq

/-- The bytes copied out of the front of an array. -/
def copyOut (f : Nat → Field) (n : Nat) : Reads Field Nat Bytes :=
  (Reads.loadAll ((range n).map f)).map fun bs => bs.map UInt8.ofNat

/-- The loads between the two looks at the marker. -/
def readEvent : Reads Field Nat Delivered :=
  .load .chanLen fun clen =>
  .load .payloadLen fun plen =>
  (copyOut .chan (min clen CHAN_MAX)).bind fun chan =>
  (copyOut .payload (min plen PAYLOAD_MAX)).map fun payload => (chan, payload)

/-- The body of the loop: the event `s`, if its slot has it before and after it is copied. -/
def readSlot (s : Nat) : Prog Ring (Option Delivered) :=
  .read fun r =>
  if r.slot (slotOf s) .seq ≠ s then .ret none else
  (readEvent.prog fun r => r.slot (slotOf s)).bind fun e =>
  .read fun r => .ret (if r.slot (slotOf s) .seq = s then some e else none)

/-- The loop over the numbers. -/
def scan : List Nat → Prog Ring (List (Nat × Delivered))
  | [] => .ret []
  | s :: ss => (readSlot s).bind fun o => (scan ss).map fun out =>
    match o with
    | some e => (s, e) :: out
    | none => out

/-- The numbers a poll goes through. -/
def window (last w : Nat) : List Nat :=
  let start := max (last + 1) (w - (RING_SLOTS - 1))
  range' start (w + 1 - start)

/-- `read_from`: the events and the new cursor. -/
def readFrom (last : Nat) : Prog Ring (List (Nat × Delivered) × Nat) :=
  .read fun r =>
  if r.writeSeq = 0 ∨ r.writeSeq ≤ last then .ret ([], r.writeSeq)
  else (scan (window last r.writeSeq)).map fun out => (out, r.writeSeq)

/-! ## Callers -/

inductive Call where
  | publish (e : Delivered)
  | currentSeq
  | readFrom (last : Nat)
deriving DecidableEq

inductive Res where
  | published (seq : Option Nat)
  | current (seq : Nat)
  | polled (events : List (Nat × Delivered)) (last : Nat)
deriving DecidableEq

def code : Call → Prog Ring Res
  | .publish e => (publish e).map .published
  | .currentSeq => currentSeq.map .current
  | .readFrom last => (readFrom last).map fun x => .polled x.1 x.2

abbrev RingPool := Pool Ring Call Res

abbrev RingEvent := Event Call Empty

def ringExec : RingPool → RingEvent → RingPool := Pool.exec code fun e => e.elim

def ringAfter (es : List RingEvent) : RingPool := Run.runs ringExec (Pool.start .zeroed) es

/-- The publish with the number has returned. -/
def Returned (P : RingPool) (n : Nat) (e : Delivered) : Prop :=
  ∃ t, ⟨t, .publish e, .published (some n)⟩ ∈ P.done

instance (P : RingPool) (n : Nat) (e : Delivered) : Decidable (Returned P n e) :=
  decidable_of_iff (∃ x ∈ P.done, x.call = .publish e ∧ x.res = .published (some n)) <| by
    constructor
    · rintro ⟨⟨t, c, r⟩, hx, rfl, rfl⟩
      exact ⟨t, hx⟩
    · rintro ⟨t, ht⟩
      exact ⟨_, ht, rfl, rfl⟩

/-- No two publishes are inside one slot. -/
def Apart (r : Ring) : Prop := ∀ m ∈ r.inside, ∀ n ∈ r.inside, slotOf m = slotOf n → m = n

instance (r : Ring) : Decidable (Apart r) :=
  inferInstanceAs (Decidable (∀ m ∈ r.inside, ∀ n ∈ r.inside, _))

/-! ## What is in a slot -/

variable (cells : Field → Nat)

@[simp] theorem copyOut_eval (f : Nat → Field) (n : Nat) :
    (copyOut f n).eval cells = bytes cells f n := by
  simp [copyOut, bytes]

theorem readEvent_eval :
    readEvent.eval cells = (bytes cells .chan (min (cells .chanLen) CHAN_MAX),
      bytes cells .payload (min (cells .payloadLen) PAYLOAD_MAX)) := by
  simp [readEvent]

theorem readEvent_eval_update (v : Nat) :
    readEvent.eval (update cells .seq v) = readEvent.eval cells := by
  simp [readEvent_eval, bytes]

theorem fill_ne_seq {e : Delivered} {w : Field × Nat} (h : w ∈ fill e) : w.1 ≠ .seq := by
  simp only [fill, copy, mem_cons, mem_append, mem_mapIdx] at h
  rcases h with rfl | rfl | ⟨j, hj, rfl⟩ | ⟨j, hj, rfl⟩ <;> simp

theorem readEvent_fill {e : Delivered} (hc : e.1.length ≤ CHAN_MAX)
    (hp : e.2.length ≤ PAYLOAD_MAX) (old : Field → Nat) :
    readEvent.eval (apply old (fill e)) = e := by
  have hclen : apply old (fill e) .chanLen = e.1.length := by
    simp [fill, apply_copy_of_ne]
  have hplen : apply old (fill e) .payloadLen = e.2.length := by
    simp [fill, apply_copy_of_ne]
  have hchan : ∀ j, apply old (fill e) (.chan j) =
      apply (update (update old .chanLen e.1.length) .payloadLen
        e.2.length) (copy .chan e.1) (.chan j) := by
    intro j
    simp only [fill, apply_cons, apply_append]
    exact apply_copy_of_ne (by simp) _ _
  have hpayload : ∀ j, apply old (fill e) (.payload j) =
      apply (apply (update (update old .chanLen e.1.length)
        .payloadLen e.2.length) (copy .chan e.1)) (copy .payload e.2) (.payload j) := by
    intro j
    simp only [fill, apply_cons, apply_append]
  rw [readEvent_eval, hclen, hplen, Nat.min_eq_left hc, Nat.min_eq_left hp]
  exact Prod.ext (bytes_eq_of_copy (fun i j => Field.chan.inj) _ hchan rfl)
    (bytes_eq_of_copy (fun i j => Field.payload.inj) _ hpayload rfl)

@[simp] theorem Ring.put_slot_self (r : Ring) (i : Nat) (f : Field) (v : Nat) :
    (r.put i f v).slot i = update (r.slot i) f v := by
  simp [Ring.put]

theorem Ring.put_slot_ne {r : Ring} {i j : Nat} (h : j ≠ i) (f : Field) (v : Nat) :
    (r.put i f v).slot j = r.slot j := by
  simp [Ring.put, h]

/-! ## What the calls do -/

/-- The counter has not gone back. -/
def Later (r r' : Ring) : Prop := r.writeSeq ≤ r'.writeSeq

theorem Later.refl (r : Ring) : Later r r := Nat.le_refl _

theorem Later.trans {r r' r'' : Ring} (h : Later r r') (h' : Later r' r'') : Later r r'' :=
  Nat.le_trans h h'

/-- The counter does not go back from where it is not at its last number. -/
def Forth (r r' : Ring) : Prop := r.Unspent → Later r r'

theorem Forth.refl (r : Ring) : Forth r r := fun _ => .refl r

section
open Conc.Prog

theorem readSlot_looks (n : Nat) : (readSlot n).Guar Eq := by
  refine guar_read (fun _ => rfl) fun r => ?_
  split
  · trivial
  · exact (Reads.guar_prog (fun _ => rfl) _).bind fun _ => guar_read (fun _ => rfl) fun _ => trivial

theorem scan_looks (ss : List Nat) : (scan ss).Guar Eq := by
  induction ss with
  | nil => trivial
  | cons s ss ih => exact (readSlot_looks s).bind fun _ => ih.map _

theorem code_looks {c : Call} (hc : ∀ e, c ≠ .publish e) : (code c).Guar Eq := by
  cases c with
  | publish e => exact absurd rfl (hc e)
  | currentSeq => exact Guar.map _ (guar_read (fun _ => rfl) fun _ => trivial)
  | readFrom last =>
    refine Guar.map _ (guar_read (fun _ => rfl) fun r => ?_)
    split
    · trivial
    · generalize window last r.writeSeq = ss
      exact (scan_looks ss).map _

theorem storing_guar (n : Nat) (e : Delivered) (ws : List (Field × Nat)) :
    (storing n e ws).Guar Forth := by
  induction ws with
  | nil => exact guar_atom fun r => ⟨.refl r, trivial⟩
  | cons w ws ih => exact guar_atom fun r => ⟨.refl r, ih⟩

theorem publish_guar (e : Delivered) : (publish e).Guar Forth := by
  rw [publish]
  split
  · trivial
  · refine guar_atom fun r => ⟨fun hr => ?_, guar_atom fun r' => ⟨.refl r', storing_guar _ e _⟩⟩
    rw [Later, hr.next]
    exact Nat.le_succ _

theorem code_guar (c : Call) : (code c).Guar Forth := by
  cases c with
  | publish e => exact (publish_guar e).map _
  | currentSeq | readFrom last =>
    exact (code_looks (by simp)).mono fun r r' h => h ▸ .refl r

end

end Askr.Broadcast
