import Askr.Conc.Prog
import Askr.Ns
import Askr.Shm

/-!
# The job ring

`squeue.rs`: a table of job slots in shared memory with a lock per slot, two counters for ids and
leases, and a table of lanes that says which queues are polled. An operation holds one slot lock at
a time, so it is a program with one atomic action for each slot it locks. What is done with a lock
held, a drained lane included, is one action; `fetch_add` on the id counter and the clock are
actions of their own.

The two counters are words that wrap (`u64Add`); `Ring.Unspent` says that neither is about to. What
is only logged (the two `DISCARDED` reports of `push`) is left out.
-/

namespace Askr.Queue

open Conc Function List

def PAYLOAD_MAX : Nat := 32 * 1024
/-- Longest queue name kept in a slot. -/
def QUEUE_NAME_MAX : Nat := 96
/-- Distinct queue names tracked for liveness. -/
def LANES : Nat := 64

structure Job where
  /-- `0` is a free slot. -/
  id : Nat
  queueHash : Nat
  /-- In milliseconds: poppable from then on. -/
  availableAt : Nat
  /-- In milliseconds: `0` is not reserved. -/
  reservedUntil : Nat
  /-- The reservation the job is out under; `0` when nobody holds it. -/
  lease : Nat
  createdAt : Nat
  /-- The queue name, truncated. -/
  name : Bytes
  attempts : Nat
  payload : Bytes

def Job.zeroed : Job :=
  { id := 0, queueHash := 0, availableAt := 0, reservedUntil := 0, lease := 0, createdAt := 0,
    name := [], attempts := 0, payload := [] }

/-- What a worker has done with one queue. -/
structure Lane where
  /-- `0` is a free entry. -/
  hash : Nat
  lastPolledMs : Nat
  lastDrainedMs : Nat
  name : Bytes

def Lane.zeroed : Lane := { hash := 0, lastPolledMs := 0, lastDrainedMs := 0, name := [] }

/-- What does not change once the ring is mapped. -/
structure Config where
  /-- A ring that is not mapped has no slots. -/
  slots : Nat
  hasher : Hasher

def Config.init (hasher : Hasher) (slots : Nat) : Config := { slots := max slots 16, hasher }

/-- `hash_q`. -/
def Config.hash (g : Config) (queue : Bytes) : Nat := (g.hasher queue).toNat

/-- The shared memory, and the clock. -/
structure Ring where
  job : Nat → Job
  nextId : Nat
  nextLease : Nat
  lane : Nat → Lane
  nowMs : Nat

def Ring.init (nowMs : Nat) : Ring :=
  { job := fun _ => .zeroed, nextId := 0, nextLease := 0, lane := fun _ => .zeroed, nowMs }

/-- The next id and the next lease are new ones: the counters have not come round. -/
def Ring.Unspent (s : Ring) : Prop := s.nextId + 1 < U64 ∧ s.nextLease + 1 < U64

instance (s : Ring) : Decidable s.Unspent := inferInstanceAs (Decidable (_ ∧ _))

section
variable {s : Ring} (h : s.Unspent)
include h

/-- The next id is one more than the last. -/
theorem Ring.Unspent.id : u64Add s.nextId 1 = s.nextId + 1 := Nat.mod_eq_of_lt h.1

/-- The next lease is one more than the last. -/
theorem Ring.Unspent.lease : u64Add s.nextLease 1 = s.nextLease + 1 := Nat.mod_eq_of_lt h.2

end

/-- Slot `i` replaced. -/
def Ring.put (s : Ring) (i : Nat) (e : Job) : Ring := { s with job := update s.job i e }

/-- Some milliseconds from now, given in seconds. -/
def later (now secs : Nat) : Nat := satAdd now (satMul secs 1000)

/-! ## Lanes -/

/-- The entries a queue may have, from the one its hash names. -/
def laneProbe (qh : Nat) : List Nat := (range LANES).map fun p => (qh % LANES + p) % LANES

/-- `lane_for`: the lane of the queue, and the table with it claimed if it was not there. -/
def laneFor (lane : Nat → Lane) (qh : Nat) (name : Bytes) : (Nat → Lane) × Option Nat :=
  let qh := if qh = 0 then 1 else qh
  match (laneProbe qh).find? fun i => (lane i).hash = qh || (lane i).hash = 0 with
  | none => (lane, none)
  | some i =>
    if (lane i).hash = qh then (lane, some i)
    else
      (update lane i { lane i with hash := qh, name := name.take QUEUE_NAME_MAX }, some i)

/-- The lane of the queue is found and changed. -/
def markLane (s : Ring) (qh : Nat) (name : Bytes) (f : Lane → Lane) : Ring :=
  match laneFor s.lane qh name with
  | (lane, none) => { s with lane }
  | (lane, some i) => { s with lane := update lane i (f (lane i)) }

def markPolled (s : Ring) (qh : Nat) (name : Bytes) (now : Nat) : Ring :=
  markLane s qh name fun l => { l with lastPolledMs := now }

def markDrained (s : Ring) (qh : Nat) (name : Bytes) (now : Nat) : Ring :=
  markLane s qh name fun l => { l with lastDrainedMs := now }

/-! ## `push` -/

/-- The slots in the order `push` looks at them. -/
def pushProbe (slots id : Nat) : List Nat :=
  (range slots).map fun i => (id % slots + i) % slots

/-- What `push` writes into the slot it found free. -/
def pushed (queue payload : Bytes) (qh id created available : Nat) : Job :=
  { id, queueHash := qh, availableAt := available, reservedUntil := 0, lease := 0,
    createdAt := created, name := queue.take QUEUE_NAME_MAX, attempts := 0, payload }

/-- The loop of `push`. -/
def pushScan (queue payload : Bytes) (qh id created available : Nat) : List Nat → Prog Ring Nat
  | [] => .ret 0
  | i :: w => .atom fun s =>
    if (s.job i).id = 0 then (s.put i (pushed queue payload qh id created available), .ret id)
    else (s, pushScan queue payload qh id created available w)

/-- `push` once it has its id. -/
def pushWith (g : Config) (queue payload : Bytes) (delay id : Nat) : Prog Ring Nat :=
  .read fun s =>
    pushScan queue payload (g.hash queue) id s.nowMs (later s.nowMs delay) (pushProbe g.slots id)

/-- `push`, with the name of the queue in its namespace. -/
def push (g : Config) (queue payload : Bytes) (delay : Nat) : Prog Ring Nat :=
  if g.slots = 0 then .ret 0
  else if payload.length > PAYLOAD_MAX then .ret 0
  else .atom fun s =>
    ({ s with nextId := u64Add s.nextId 1 }, pushWith g queue payload delay (u64Add s.nextId 1))

/-! ## `pop` -/

/-- A reserved job handed to a worker. Its `id` is the lease. -/
structure Reserved where
  id : Nat
  attempts : Nat
  payload : Bytes
deriving DecidableEq

/-- May the job be handed out at `now`? -/
def Job.ready (e : Job) (now : Nat) : Bool :=
  e.availableAt ≤ now && (e.reservedUntil = 0 || e.reservedUntil ≤ now)

/-- The best candidate of the first pass: slot, `available_at` and id. -/
def better (best : Option (Nat × Nat × Nat)) (i : Nat) (e : Job) : Option (Nat × Nat × Nat) :=
  match best with
  | none => some (i, e.availableAt, e.id)
  | some (_, ba, bid) =>
    if e.availableAt < ba ∨ (e.availableAt = ba ∧ e.id < bid) then some (i, e.availableAt, e.id)
    else best

/-- The job as it is once it is reserved. -/
def Job.reserve (e : Job) (lease now visibility : Nat) : Job :=
  { e with
    attempts := (e.attempts + 1) % 4294967296, reservedUntil := later now visibility, lease }

/-- The second pass of `pop`: the chosen slot, looked at again. -/
def popTake (qh : Nat) (queue : Bytes) (now visibility i want : Nat) :
    Prog Ring (Option Reserved) :=
  .atom fun s =>
    if (s.job i).id ≠ want then (s, .ret none)
    else if !(s.job i).ready now then (s, .ret none)
    else
      let lease := u64Add s.nextLease 1
      let e := (s.job i).reserve lease now visibility
      (markDrained { s.put i e with nextLease := lease } qh queue now,
        .ret (some ⟨lease, e.attempts, e.payload.take PAYLOAD_MAX⟩))

/-- The first pass of `pop`. -/
def popScan (qh : Nat) (queue : Bytes) (now visibility : Nat) :
    List Nat → Option (Nat × Nat × Nat) → Prog Ring (Option Reserved)
  | [], none => .ret none
  | [], some (i, _, want) => popTake qh queue now visibility i want
  | i :: w, best => .read fun s =>
    popScan qh queue now visibility w
      (if (s.job i).id = 0 ∨ (s.job i).queueHash ≠ qh then best
        else if (s.job i).ready now then better best i (s.job i) else best)

/-- `pop` once it has read the clock. -/
def popAt (g : Config) (queue : Bytes) (visibility now : Nat) : Prog Ring (Option Reserved) :=
  .atom fun s => (markPolled s (g.hash queue) queue now,
    popScan (g.hash queue) queue now visibility (range g.slots) none)

/-- `pop`, with the name of the queue in its namespace. -/
def pop (g : Config) (queue : Bytes) (visibility : Nat) : Prog Ring (Option Reserved) :=
  if g.slots = 0 then .ret none else .read fun s => popAt g queue visibility s.nowMs

/-! ## `delete` and `release` -/

/-- The loop of `delete` and `release`: `act` is done to the slot that has the lease, if its job
belongs to the application in force. -/
def leaseScan (app : Option Ns.App) (lease : Nat) (act : Job → Job) : List Nat → Prog Ring Bool
  | [] => .ret false
  | i :: w => .atom fun s =>
    if (s.job i).id ≠ 0 ∧ (s.job i).lease = lease then
      if Ns.owns app ((s.job i).name.take QUEUE_NAME_MAX) then (s.put i (act (s.job i)), .ret true)
      else (s, .ret false)
    else (s, leaseScan app lease act w)

/-- What `delete` does to the slot. -/
def Job.free (e : Job) : Job := { e with id := 0 }

/-- What `release` does to the slot. -/
def Job.giveBack (e : Job) (available : Nat) : Job :=
  { e with availableAt := available, reservedUntil := 0, lease := 0 }

def delete (g : Config) (app : Option Ns.App) (lease : Nat) : Prog Ring Bool :=
  if g.slots = 0 then .ret false
  else if lease = 0 then .ret false
  else leaseScan app lease Job.free (range g.slots)

def release (g : Config) (app : Option Ns.App) (lease delay : Nat) : Prog Ring Bool :=
  if g.slots = 0 then .ret false
  else if lease = 0 then .ret false
  else .read fun s =>
    leaseScan app lease (Job.giveBack · (later s.nowMs delay)) (range g.slots)

/-! ## Calls -/

inductive Req where
  | push (queue payload : Bytes) (delay : Nat)
  | pop (queue : Bytes) (visibility : Nat)
  | delete (lease : Nat)
  | release (lease delay : Nat)

/-- A call: the application in force, and the request. -/
structure Call where
  app : Option Ns.App
  req : Req

inductive Res where
  | id (n : Nat)
  | job (r : Option Reserved)
  | flag (b : Bool)

def code (g : Config) (c : Call) : Prog Ring Res :=
  match c.req with
  | .push queue payload delay => (push g (Ns.key c.app queue) payload delay).map .id
  | .pop queue visibility => (pop g (Ns.key c.app queue) visibility).map .job
  | .delete lease => (delete g c.app lease).map .flag
  | .release lease delay => (release g c.app lease delay).map .flag

/-- The clock moves on by some milliseconds. -/
def tick (d : Nat) (s : Ring) : Ring := { s with nowMs := s.nowMs + d }

end Askr.Queue
