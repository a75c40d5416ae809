import Askr.Data.Cells
import Askr.Queue.Act

/-!
# The ring, store by store

The ring as it lies in shared memory: the words of its header, two counters, and the fields and
bytes of every slot. What an operation does with a slot lock held is a list of stores, and a process
can be killed between any two of them. `Mem.ring` reads the cells as a ring, and `lifts_code` says
that the operations do to it what those of `Askr.Queue.Ring` do.

Some of `Mem` is for the proofs only: `before` and `made` are what the last section found and
stored, which is what a process that dies inside of it has done a part of, and `given` is the end of
the last delay and of the last visibility window of the job of a slot.
-/

namespace Askr.Queue

open Conc Function Prog List Cells

/-! ## Memory -/

/-- A field of a slot, or a byte of one of its arrays. -/
inductive Field where
  | id
  | queueHash
  | availableAt
  | reservedUntil
  | lease
  | createdAt
  | nameLen
  | name (j : Nat)
  | attempts
  | payloadLen
  | payload (j : Nat)
deriving DecidableEq

inductive Header where
  | magic
  | version
  | slots
  | slotSize
  | payloadMax
  | nameMax
deriving DecidableEq

inductive Cell where
  | header (h : Header)
  | nextId
  | nextLease
  | job (i : Nat) (f : Field)
deriving DecidableEq

/-- The ends of the last delay and of the last visibility window that a job was given. -/
structure Ends where
  delay : Nat
  window : Nat

/-- What a job is given by a store. -/
inductive Gift where
  /-- It is there, with the delay of its push. -/
  | job (till : Nat)
  | delay (till : Nat)
  | window (till : Nat)

def Gift.give : Gift → Ends → Ends
  | .job till, _ => ⟨till, 0⟩
  | .delay till, e => { e with delay := till }
  | .window till, e => { e with window := till }

/-- A store, and what it gives the job of a slot. -/
structure Store where
  cell : Cell
  value : Nat
  gift : Option (Nat × Gift)

def Store.plain (w : Cell × Nat) : Store := ⟨w.1, w.2, none⟩

def Store.write (w : Store) : Cell × Nat := (w.cell, w.value)

def Store.give (given : Nat → Ends) (w : Store) : Nat → Ends :=
  match w.gift with
  | none => given
  | some (i, gift) => update given i (gift.give (given i))

/-- The cells, and what the jobs were given. -/
structure Image where
  cells : Cell → Nat
  given : Nat → Ends

/-- The stores, made in order. -/
def Image.apply (m : Image) (ws : List Store) : Image :=
  { cells := Cells.apply m.cells (ws.map Store.write), given := ws.foldl Store.give m.given }

def Image.job (m : Image) (i : Nat) : Job :=
  { id := m.cells (.job i .id)
    queueHash := m.cells (.job i .queueHash)
    availableAt := m.cells (.job i .availableAt)
    reservedUntil := m.cells (.job i .reservedUntil)
    lease := m.cells (.job i .lease)
    createdAt := m.cells (.job i .createdAt)
    name := Cells.bytes m.cells (fun j => .job i (.name j))
      (min (m.cells (.job i .nameLen)) QUEUE_NAME_MAX)
    attempts := m.cells (.job i .attempts)
    payload := Cells.bytes m.cells (fun j => .job i (.payload j))
      (min (m.cells (.job i .payloadLen)) PAYLOAD_MAX) }

/-- The mapping and the clock; and what the last section found and stored. -/
structure Mem where
  now : Image
  lane : Nat → Lane
  nowMs : Nat
  before : Image
  made : List Store

def Mem.ring (s : Mem) : Ring :=
  { job := s.now.job, nextId := s.now.cells .nextId, nextLease := s.now.cells .nextLease
    lane := s.lane, nowMs := s.nowMs }

def Mem.store (s : Mem) (ws : List Store) : Mem :=
  { s with now := s.now.apply ws, before := s.now, made := ws }

/-! ## The header -/

def MAGIC : Nat := 0x41534b5251554531
def LAYOUT_VERSION : Nat := 2
/-- `size_of::<Job>()`. -/
def JOB_SIZE : Nat := 32936

def headerOf (g : Config) : Header → Nat
  | .magic => MAGIC
  | .version => LAYOUT_VERSION
  | .slots => g.slots
  | .slotSize => JOB_SIZE
  | .payloadMax => PAYLOAD_MAX
  | .nameMax => QUEUE_NAME_MAX

/-- `header_mismatch`: the first word that is not ours. -/
def headerMismatch (g : Config) (cells : Cell → Nat) : Option Header :=
  [Header.magic, .version, .slots, .slotSize, .payloadMax, .nameMax].find? fun h =>
    cells (.header h) ≠ headerOf g h

/-- A fresh mapping: zeroed, with its header written. -/
def Mem.init (g : Config) (nowMs : Nat) : Mem :=
  let fresh : Image :=
    { cells := fun c => match c with
        | .header h => headerOf g h
        | _ => 0
      given := fun _ => ⟨0, 0⟩ }
  { now := fresh, lane := fun _ => .zeroed, nowMs, before := fresh, made := [] }

/-- `map_named` of an object that is there: it is used if its header is ours, and made anew
otherwise. -/
def Mem.attach (g : Config) (s : Mem) : Mem :=
  match headerMismatch g s.now.cells with
  | none => { s with before := s.now, made := [] }
  | some _ => .init g s.nowMs

/-! ## The stores of the sections -/

/-- What `push` stores into the slot it found free, before the id. -/
def pushFields (i : Nat) (queue payload : Bytes) (qh created available : Nat) : List (Cell × Nat) :=
  [(.job i .queueHash, qh), (.job i .availableAt, available), (.job i .createdAt, created),
    (.job i .nameLen, (queue.take QUEUE_NAME_MAX).length)] ++
  Cells.copy (fun j => .job i (.name j)) (queue.take QUEUE_NAME_MAX) ++
  [(.job i .reservedUntil, 0), (.job i .lease, 0), (.job i .attempts, 0),
    (.job i .payloadLen, payload.length)] ++
  Cells.copy (fun j => .job i (.payload j)) payload

/-- All that `push` stores there. The id is last: it makes the job. -/
def pushStores (i : Nat) (queue payload : Bytes) (qh id created available : Nat) : List Store :=
  (pushFields i queue payload qh created available).map Store.plain ++
    [⟨.job i .id, id, some (i, .job available)⟩]

/-- What `pop` stores into the slot it reserves, and the lease counter it takes the lease from. -/
def reserveStores (i : Nat) (e : Job) (lease now visibility : Nat) : List Store :=
  [⟨.job i .attempts, (e.attempts + 1) % 4294967296, none⟩,
    ⟨.job i .reservedUntil, later now visibility, some (i, .window (later now visibility))⟩,
    ⟨.nextLease, lease, none⟩,
    ⟨.job i .lease, lease, none⟩]

/-- What `delete` stores. -/
def freeStores (i : Nat) : List Store := [⟨.job i .id, 0, none⟩]

/-- What `release` stores. -/
def giveBackStores (available i : Nat) : List Store :=
  [⟨.job i .availableAt, available, some (i, .delay available)⟩,
    ⟨.job i .reservedUntil, 0, none⟩,
    ⟨.job i .lease, 0, none⟩]

/-! ## The operations -/

namespace Mem

/-- The loop of `push`. -/
def pushScan (queue payload : Bytes) (qh id created available : Nat) : List Nat → Prog Mem Nat
  | [] => .ret 0
  | i :: w => .atom fun s =>
    if (s.now.job i).id = 0 then
      (s.store (pushStores i queue payload qh id created available), .ret id)
    else (s.store [], pushScan queue payload qh id created available w)

/-- `push` once it has its id. -/
def pushWith (g : Config) (queue payload : Bytes) (delay id : Nat) : Prog Mem Nat :=
  .atom fun s => (s.store [],
    pushScan queue payload (g.hash queue) id s.nowMs (later s.nowMs delay) (pushProbe g.slots id))

def push (g : Config) (queue payload : Bytes) (delay : Nat) : Prog Mem Nat :=
  if g.slots = 0 then .ret 0
  else if payload.length > PAYLOAD_MAX then .ret 0
  else .atom fun s =>
    let id := u64Add (s.now.cells .nextId) 1
    (s.store [⟨.nextId, id, none⟩], pushWith g queue payload delay id)

/-- The second pass of `pop`. -/
def popTake (qh : Nat) (queue : Bytes) (now visibility i want : Nat) : Prog Mem (Option Reserved) :=
  .atom fun s =>
    let e := s.now.job i
    if e.id ≠ want then (s.store [], .ret none)
    else if !e.ready now then (s.store [], .ret none)
    else
      let lease := u64Add (s.now.cells .nextLease) 1
      let s' := s.store (reserveStores i e lease now visibility)
      ({ s' with lane := (markDrained s'.ring qh queue now).lane },
        .ret (some ⟨lease, (e.attempts + 1) % 4294967296, e.payload⟩))

/-- The first pass of `pop`. -/
def popScan (qh : Nat) (queue : Bytes) (now visibility : Nat) :
    List Nat → Option (Nat × Nat × Nat) → Prog Mem (Option Reserved)
  | [], none => .ret none
  | [], some (i, _, want) => popTake qh queue now visibility i want
  | i :: w, best => .atom fun s => (s.store [],
    popScan qh queue now visibility w
      (if (s.now.job i).id = 0 ∨ (s.now.job i).queueHash ≠ qh then best
        else if (s.now.job i).ready now then better best i (s.now.job i) else best))

/-- `pop` once it has read the clock. -/
def popAt (g : Config) (queue : Bytes) (visibility now : Nat) : Prog Mem (Option Reserved) :=
  .atom fun s =>
    ({ s.store [] with lane := (markPolled s.ring (g.hash queue) queue now).lane },
      popScan (g.hash queue) queue now visibility (List.range g.slots) none)

def pop (g : Config) (queue : Bytes) (visibility : Nat) : Prog Mem (Option Reserved) :=
  if g.slots = 0 then .ret none
  else .atom fun s => (s.store [], popAt g queue visibility s.nowMs)

/-- The loop of `delete` and `release`. -/
def leaseScan (app : Option Ns.App) (lease : Nat) (stores : Nat → List Store) :
    List Nat → Prog Mem Bool
  | [] => .ret false
  | i :: w => .atom fun s =>
    if (s.now.job i).id ≠ 0 ∧ (s.now.job i).lease = lease then
      if Ns.owns app (s.now.job i).name then (s.store (stores i), .ret true)
      else (s.store [], .ret false)
    else (s.store [], leaseScan app lease stores w)

def delete (g : Config) (app : Option Ns.App) (lease : Nat) : Prog Mem Bool :=
  if g.slots = 0 then .ret false
  else if lease = 0 then .ret false
  else leaseScan app lease freeStores (List.range g.slots)

def release (g : Config) (app : Option Ns.App) (lease delay : Nat) : Prog Mem Bool :=
  if g.slots = 0 then .ret false
  else if lease = 0 then .ret false
  else .atom fun s => (s.store [],
    leaseScan app lease (giveBackStores (later s.nowMs delay)) (List.range g.slots))

def code (g : Config) (c : Call) : Prog Mem Res :=
  match c.req with
  | .push queue payload delay => (push g (Ns.key c.app queue) payload delay).map .id
  | .pop queue visibility => (pop g (Ns.key c.app queue) visibility).map .job
  | .delete lease => (delete g c.app lease).map .flag
  | .release lease delay => (release g c.app lease delay).map .flag

def tick (d : Nat) (s : Mem) : Mem := { s with nowMs := s.nowMs + d }

end Mem

/-! ## What the stores do to the ring -/

section
variable {m : Image} {ws : List Store} {i j : Nat}

@[simp] theorem map_write_plain (l : List (Cell × Nat)) :
    (l.map Store.plain).map Store.write = l := by
  rw [map_map]
  exact map_id l

theorem Image.job_congr {m' : Image} (h : ∀ f, m.cells (.job i f) = m'.cells (.job i f)) :
    m.job i = m'.job i := by
  simp only [Image.job, h, bytes]

/-- The stores are to one slot and to the counters, and what they give is for its job. -/
structure Within (i : Nat) (ws : List Store) : Prop where
  slot : ∀ w ∈ ws, ∀ j f, w.cell = .job j f → j = i
  header : ∀ w ∈ ws, ∀ h, w.cell ≠ .header h
  gift : ∀ w ∈ ws, ∀ j gift, w.gift = some (j, gift) → j = i

theorem Within.take (h : Within i ws) (n : Nat) : Within i (ws.take n) where
  slot w hw := h.slot w (mem_of_mem_take hw)
  header w hw := h.header w (mem_of_mem_take hw)
  gift w hw := h.gift w (mem_of_mem_take hw)

theorem Image.cells_apply_of_ne {c : Cell} (h : ∀ w ∈ ws, w.cell ≠ c) :
    (m.apply ws).cells c = m.cells c := by
  refine apply_of_forall_ne (fun x hx => ?_) _
  obtain ⟨w, hw, rfl⟩ := mem_map.1 hx
  exact h w hw

theorem Within.job_of_ne (h : Within i ws) (hj : j ≠ i) : (m.apply ws).job j = m.job j :=
  Image.job_congr fun f => Image.cells_apply_of_ne fun w hw heq => hj (h.slot w hw j f heq)

theorem Within.header_eq (h : Within i ws) (x : Header) :
    (m.apply ws).cells (.header x) = m.cells (.header x) :=
  Image.cells_apply_of_ne fun w hw => h.header w hw x

theorem Within.given_of_ne (h : Within i ws) (hj : j ≠ i) : (m.apply ws).given j = m.given j := by
  have hfold : ∀ (ws : List Store) (given : Nat → Ends),
      (∀ w ∈ ws, ∀ j gift, w.gift = some (j, gift) → j = i) →
        ws.foldl Store.give given j = given j := by
    intro ws
    induction ws with
    | nil => exact fun given h => rfl
    | cons w ws ih =>
      intro given h
      rw [foldl_cons, ih _ fun w' hw' => h w' (.tail _ hw')]
      cases hgift : w.gift with
      | none => simp only [Store.give, hgift]
      | some p =>
        simp only [Store.give, hgift]
        rw [update_of_ne]
        rwa [h w (.head _) p.1 p.2 hgift]
  exact hfold ws m.given h.gift

theorem mem_pushFields {queue payload : Bytes} {qh created available : Nat} {w : Cell × Nat}
    (hw : w ∈ pushFields i queue payload qh created available) : ∃ f, f ≠ .id ∧ w.1 = .job i f := by
  simp only [pushFields, copy, mem_append, mem_cons, not_mem_nil, or_false,
    mem_mapIdx] at hw
  rcases hw with (((rfl | rfl | rfl | rfl) | ⟨_, _, rfl⟩) | rfl | rfl | rfl | rfl) | ⟨_, _, rfl⟩
  all_goals exact ⟨_, by simp, rfl⟩

theorem mem_pushStores {queue payload : Bytes} {qh id created available : Nat} {w : Store}
    (hw : w ∈ pushStores i queue payload qh id created available) :
    (∃ f, w.cell = .job i f) ∧ ∀ j gift, w.gift = some (j, gift) → j = i := by
  rcases mem_append.1 hw with hw | hw
  · obtain ⟨x, hx, rfl⟩ := mem_map.1 hw
    obtain ⟨f, -, hf⟩ := mem_pushFields hx
    exact ⟨⟨f, hf⟩, fun j gift h => by cases h⟩
  · rw [mem_singleton.1 hw]
    refine ⟨⟨_, rfl⟩, fun j gift h => ?_⟩
    cases h
    rfl

theorem within_pushStores (i : Nat) (queue payload : Bytes) (qh id created available : Nat) :
    Within i (pushStores i queue payload qh id created available) where
  slot w hw j f heq := by
    obtain ⟨⟨f', hf'⟩, -⟩ := mem_pushStores hw
    rw [hf'] at heq
    cases heq
    rfl
  header w hw h heq := by
    obtain ⟨⟨f, hf⟩, -⟩ := mem_pushStores hw
    rw [hf] at heq
    cases heq
  gift w hw := (mem_pushStores hw).2

theorem within_reserveStores (i : Nat) (e : Job) (lease now visibility : Nat) :
    Within i (reserveStores i e lease now visibility) := by
  constructor <;> simp [reserveStores, eq_comm]

theorem within_freeStores (i : Nat) : Within i (freeStores i) := by
  constructor <;> simp [freeStores, eq_comm]

theorem within_giveBackStores (available i : Nat) : Within i (giveBackStores available i) := by
  constructor <;> simp [giveBackStores, eq_comm]

theorem job_pushStores (m : Image) (i : Nat) (queue : Bytes) {payload : Bytes}
    (hlen : payload.length ≤ PAYLOAD_MAX) (qh id created available : Nat) :
    (m.apply (pushStores i queue payload qh id created available)).job i =
      pushed queue payload qh id created available := by
  have hcells : (m.apply (pushStores i queue payload qh id created available)).cells =
      apply m.cells (pushFields i queue payload qh created available ++
        [(.job i .id, id)]) := by
    rw [Image.apply, pushStores, map_append, map_write_plain]
    rfl
  rw [Image.job, hcells, pushed, pushFields]
  simp only [apply_append]
  congr 1
  case e_name =>
    have hinj : Injective fun j => Cell.job i (.name j) := fun a b h => by simpa using h
    have hmin := Nat.min_eq_left (length_take_le QUEUE_NAME_MAX queue)
    refine bytes_eq_of_copy hinj (apply m.cells
      [(.job i .queueHash, qh), (.job i .availableAt, available), (.job i .createdAt, created),
        (.job i .nameLen, (queue.take QUEUE_NAME_MAX).length)]) (fun j => ?_) ?_
    · simp [apply_copy_of_ne]
    · rw [← hmin]
      simp [apply_copy_of_ne]
  case e_payload =>
    have hinj : Injective fun j => Cell.job i (.payload j) := fun a b h => by
      simpa using h
    have hmin := Nat.min_eq_left hlen
    refine bytes_eq_of_copy hinj _ (fun j => apply_of_forall_ne (by simp) _) ?_
    rw [← hmin]
    simp [apply_copy_of_ne]
  all_goals simp [apply_copy_of_ne]

theorem Within.ring_store (h : Within i ws) (s : Mem) : (s.store ws).ring =
      { s.ring.put i ((s.now.apply ws).job i) with
        nextId := (s.now.apply ws).cells .nextId
        nextLease := (s.now.apply ws).cells .nextLease } := by
  have hjob : (s.now.apply ws).job = update s.now.job i ((s.now.apply ws).job i) := by
    funext j
    by_cases hj : j = i
    · rw [hj, update_self]
    · rw [update_of_ne hj, h.job_of_ne hj]
  simp only [Mem.ring, Mem.store, Ring.put]
  rw [← hjob]

variable (s : Mem)

theorem ring_pushStores (i : Nat) (queue : Bytes) {payload : Bytes}
    (hlen : payload.length ≤ PAYLOAD_MAX) (qh id created available : Nat) :
    (s.store (pushStores i queue payload qh id created available)).ring =
      s.ring.put i (pushed queue payload qh id created available) := by
  have hcounter : ∀ c, (∀ f, c ≠ .job i f) →
      (s.now.apply (pushStores i queue payload qh id created available)).cells c =
        s.now.cells c := by
    refine fun c hc => Image.cells_apply_of_ne fun w hw heq => ?_
    obtain ⟨⟨f, hf⟩, -⟩ := mem_pushStores hw
    exact hc f (heq.symm.trans hf)
  rw [(within_pushStores ..).ring_store, job_pushStores _ _ _ hlen, hcounter _ (by simp),
    hcounter _ (by simp)]
  rfl

theorem ring_reserveStores (i lease now visibility : Nat) :
    (s.store (reserveStores i (s.now.job i) lease now visibility)).ring =
      { s.ring.put i ((s.now.job i).reserve lease now visibility) with nextLease := lease } := by
  rw [(within_reserveStores ..).ring_store]
  simp [reserveStores, Image.apply, Image.job, Store.write, Job.reserve, Mem.ring, Ring.put,
    bytes]

theorem ring_freeStores (i : Nat) :
    (s.store (freeStores i)).ring = s.ring.put i (s.now.job i).free := by
  rw [(within_freeStores ..).ring_store]
  simp [freeStores, Image.apply, Image.job, Store.write, Job.free, Mem.ring, Ring.put, bytes]

theorem ring_giveBackStores (available i : Nat) : (s.store (giveBackStores available i)).ring =
      s.ring.put i ((s.now.job i).giveBack available) := by
  rw [(within_giveBackStores ..).ring_store]
  simp [giveBackStores, Image.apply, Image.job, Store.write, Job.giveBack, Mem.ring, Ring.put,
    bytes]

end

/-! ## The operations do what those of `Ring` do -/

section
variable {g : Config} {app : Option Ns.App}

theorem lifts_pushScan (queue : Bytes) {payload : Bytes} (hlen : payload.length ≤ PAYLOAD_MAX)
    (qh id created available : Nat) (w : List Nat) :
    (Mem.pushScan queue payload qh id created available w).Lifts Mem.ring
      (pushScan queue payload qh id created available w) := by
  induction w with
  | nil => exact lifts_ret _
  | cons i w ih =>
    refine lifts_atom fun s => ?_
    change _ = (if (s.now.job i).id = 0 then _ else _ : Ring × Prog Ring Nat).1 ∧
      Lifts _ _ (if (s.now.job i).id = 0 then _ else _ : Ring × Prog Ring Nat).2
    by_cases hfree : (s.now.job i).id = 0
    · rw [if_pos hfree, if_pos hfree]
      exact ⟨ring_pushStores s i queue hlen qh id created available, lifts_ret _⟩
    · rw [if_neg hfree, if_neg hfree]
      exact ⟨rfl, ih⟩

theorem lifts_push (queue payload : Bytes) (delay : Nat) :
    (Mem.push g queue payload delay).Lifts Mem.ring (push g queue payload delay) := by
  rw [Mem.push, push]
  split
  · exact lifts_ret _
  · split
    · exact lifts_ret _
    · rename_i hlen
      refine lifts_atom fun s => ⟨rfl, lifts_read fun s' => ⟨rfl, ?_⟩⟩
      exact lifts_pushScan queue (Nat.not_lt.1 hlen) _ _ _ _ _

theorem lifts_popTake (qh : Nat) (queue : Bytes) (now visibility i want : Nat) :
    (Mem.popTake qh queue now visibility i want).Lifts Mem.ring
      (popTake qh queue now visibility i want) := by
  refine lifts_atom fun s => ?_
  have hjob : s.ring.job i = s.now.job i := rfl
  have hcount : s.ring.nextLease = s.now.cells .nextLease := rfl
  simp only [hjob, hcount]
  by_cases hid : (s.now.job i).id ≠ want
  · rw [if_pos hid, if_pos hid]
    exact ⟨rfl, lifts_ret _⟩
  · rw [if_neg hid, if_neg hid]
    by_cases hready : (!(s.now.job i).ready now) = true
    · rw [if_pos hready, if_pos hready]
      exact ⟨rfl, lifts_ret _⟩
    · rw [if_neg hready, if_neg hready]
      refine ⟨?_, ?_⟩
      · obtain ⟨lane, hlane⟩ := markLane_eq
          (s.store (reserveStores i (s.now.job i) (u64Add (s.now.cells .nextLease) 1) now
            visibility)).ring qh queue fun l => { l with lastDrainedMs := now }
        rw [← ring_reserveStores, markDrained, hlane]
        rfl
      · have htake : ((s.now.job i).payload.take PAYLOAD_MAX) = (s.now.job i).payload := by
          refine take_of_length_le ?_
          rw [Image.job, length_bytes]
          exact Nat.min_le_right _ _
        rw [Job.reserve, htake]
        exact lifts_ret _

theorem lifts_popScan (qh : Nat) (queue : Bytes) (now visibility : Nat) (w : List Nat)
    (best : Option (Nat × Nat × Nat)) : (Mem.popScan qh queue now visibility w best).Lifts Mem.ring
      (popScan qh queue now visibility w best) := by
  induction w generalizing best with
  | nil =>
    cases best with
    | none => exact lifts_ret _
    | some b => exact lifts_popTake qh queue now visibility b.1 b.2.2
  | cons i w ih => exact lifts_read fun s => ⟨rfl, ih _⟩

theorem lifts_pop (queue : Bytes) (visibility : Nat) :
    (Mem.pop g queue visibility).Lifts Mem.ring (pop g queue visibility) := by
  rw [Mem.pop, pop]
  split
  · exact lifts_ret _
  · refine lifts_read fun s => ⟨rfl, lifts_atom fun s' => ⟨?_, lifts_popScan _ _ _ _ _ _⟩⟩
    obtain ⟨lane, hlane⟩ := markLane_eq s'.ring (g.hash queue) queue
      fun l => { l with lastPolledMs := s.nowMs }
    have hnow : s.ring.nowMs = s.nowMs := rfl
    simp only [hnow, markPolled, hlane]
    rfl

theorem lifts_leaseScan {act : Job → Job} {stores : Nat → List Store}
    (h : ∀ (s : Mem) i, (s.store (stores i)).ring = s.ring.put i (act (s.now.job i)))
    (lease : Nat) (w : List Nat) :
    (Mem.leaseScan app lease stores w).Lifts Mem.ring (leaseScan app lease act w) := by
  induction w with
  | nil => exact lifts_ret _
  | cons i w ih =>
    refine lifts_atom fun s => ?_
    have hname : (s.now.job i).name.take QUEUE_NAME_MAX = (s.now.job i).name := by
      refine take_of_length_le ?_
      rw [Image.job, length_bytes]
      exact Nat.min_le_right _ _
    have hjob : s.ring.job i = s.now.job i := rfl
    simp only [hjob, hname]
    by_cases hslot : (s.now.job i).id ≠ 0 ∧ (s.now.job i).lease = lease
    · rw [if_pos hslot, if_pos hslot]
      by_cases howns : Ns.owns app (s.now.job i).name = true
      · rw [if_pos howns, if_pos howns]
        exact ⟨h s i, lifts_ret _⟩
      · rw [if_neg howns, if_neg howns]
        exact ⟨rfl, lifts_ret _⟩
    · rw [if_neg hslot, if_neg hslot]
      exact ⟨rfl, ih⟩

theorem lifts_delete (lease : Nat) :
    (Mem.delete g app lease).Lifts Mem.ring (delete g app lease) := by
  rw [Mem.delete, delete]
  split
  · exact lifts_ret _
  · split
    · exact lifts_ret _
    · exact lifts_leaseScan ring_freeStores lease _

theorem lifts_release (lease delay : Nat) :
    (Mem.release g app lease delay).Lifts Mem.ring (release g app lease delay) := by
  rw [Mem.release, release]
  split
  · exact lifts_ret _
  · split
    · exact lifts_ret _
    · refine lifts_read fun s => ⟨rfl, ?_⟩
      exact lifts_leaseScan (fun s' i => ring_giveBackStores s' _ i) lease _

/-- **Store by store, a call does what it does section by section.** -/
theorem lifts_code (c : Call) : (Mem.code g c).Lifts Mem.ring (code g c) := by
  obtain ⟨app, req⟩ := c
  cases req with
  | push queue payload delay => exact (lifts_push _ payload delay).map _
  | pop queue visibility => exact (lifts_pop _ visibility).map _
  | delete lease => exact (lifts_delete lease).map _
  | release lease delay => exact (lifts_release lease delay).map _

end

end Askr.Queue
