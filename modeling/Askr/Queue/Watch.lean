import Askr.Data.Tally
import Askr.Queue.Ring
import Mathlib.Data.List.Sort

/-!
# The backlog watchdog

`warnings` of `queue.rs`: which queues have jobs that wait too long, and what is known of their
workers. It joins two reports, the occupied slots counted by queue (`byQueueWithApp`) and the lanes
that were polled (`lanes`). Both know a queue by what was stored of its name, taken apart into the
application and the name in it and shown as text (`label`).

The master reads the clock, the slots and the lanes one after the other; here they are read at once.
`mem_warnings` says what a warning is made from.
-/

namespace Askr.Queue

open Bytes List

/-- A queue as it is shown: its application and the name in it. -/
def label (stored : Bytes) : Option Ns.App × Bytes :=
  ((Ns.split stored).1, fromUtf8Lossy (Ns.split stored).2)

/-- How `Option<App>` is compared: like the digits, and none before all of them. -/
def appOrder : Option Ns.App → Bytes
  | none => []
  | some app => app.hex

/-! ## The jobs of each queue -/

structure Counts where
  pending : Nat
  delayed : Nat
  reserved : Nat
  /-- `0` when there are none. -/
  oldestPendingCreatedMs : Nat

/-- `Counts::default`. -/
def Counts.zero : Counts :=
  { pending := 0, delayed := 0, reserved := 0, oldestPendingCreatedMs := 0 }

def Counts.count (now : Nat) (e : Job) (c : Counts) : Counts :=
  if e.reservedUntil > now then { c with reserved := c.reserved + 1 }
  else if e.availableAt > now then { c with delayed := c.delayed + 1 }
  else
    { c with
      pending := c.pending + 1
      oldestPendingCreatedMs :=
        if c.oldestPendingCreatedMs = 0 ∨ e.createdAt < c.oldestPendingCreatedMs then e.createdAt
        else c.oldestPendingCreatedMs }

structure Backlog where
  app : Option Ns.App
  name : Bytes
  counts : Counts

/-- The most pending jobs first, and then by name and application. -/
def Backlog.Le (a b : Backlog) : Prop :=
  b.counts.pending < a.counts.pending ∨ b.counts.pending = a.counts.pending ∧
    (a.name < b.name ∨ a.name = b.name ∧ appOrder a.app ≤ appOrder b.app)

instance : DecidableRel Backlog.Le := fun _ _ => inferInstanceAs (Decidable (_ ∨ _))

def occupied (g : Config) (s : Ring) : List Nat :=
  (List.range g.slots).filter fun i => (s.job i).id ≠ 0

def Job.label (e : Job) : Option Ns.App × Bytes := Queue.label (e.name.take QUEUE_NAME_MAX)

def byQueueWithApp (g : Config) (s : Ring) : List Backlog :=
  ((Tally.collect (fun i => (s.job i).label) Counts.zero (fun i => Counts.count s.nowMs (s.job i))
    [] (occupied g s)).map fun e => ⟨e.1.1, e.1.2, e.2⟩).insertionSort Backlog.Le

/-! ## The lanes -/

structure LaneStats where
  app : Option Ns.App
  name : Bytes
  lastPolledMs : Nat
  lastDrainedMs : Nat

/-- By name, and then by application. -/
def LaneStats.Le (a b : LaneStats) : Prop :=
  a.name < b.name ∨ a.name = b.name ∧ appOrder a.app ≤ appOrder b.app

instance : DecidableRel LaneStats.Le := fun _ _ => inferInstanceAs (Decidable (_ ∨ _))

def Lane.label (l : Lane) : Option Ns.App × Bytes := Queue.label (l.name.take QUEUE_NAME_MAX)

/-- What is reported of a lane: nothing of a free entry, or of one whose name is not written. -/
def Lane.stats (l : Lane) : Option LaneStats :=
  if l.hash = 0 then none
  else if l.name.take QUEUE_NAME_MAX = [] then none
  else some
    { app := l.label.1, name := l.label.2, lastPolledMs := l.lastPolledMs
      lastDrainedMs := l.lastDrainedMs }

def lanes (s : Ring) : List LaneStats :=
  ((List.range LANES).filterMap fun i => (s.lane i).stats).insertionSort LaneStats.Le

/-! ## Warnings -/

def DEFAULT_STALL_SECS : Nat := 30

/-- How long without a poll before a lane counts as unattended. -/
def POLL_STALE_SECS : Nat := 60

/-- Why a queue is flagged. -/
inductive LaneFault where
  | unattended
  | wrongApplication (polledBy : List Ns.App)
  | notDraining
deriving DecidableEq

/-- The fault, from whether the lane is polled and who else polls its name. -/
def LaneFault.of (unattended : Bool) (others : List Ns.App) : LaneFault :=
  if others ≠ [] then .wrongApplication others
  else if unattended then .unattended else .notDraining

structure LaneWarning where
  queue : Bytes
  app : Option Ns.App
  fault : LaneFault
  pending : Nat
  oldestPendingSecs : Nat
  lastPolledSecs : Option Nat
  lastDrainedSecs : Option Nat

def ageSecs (now stamp : Nat) : Option Nat :=
  if stamp ≠ 0 then some ((now - stamp) / 1000) else none

/-- `matches!(age, Some(s) if s <= POLL_STALE_SECS)`. -/
def isRecent (age : Option Nat) : Bool := age.any (· ≤ POLL_STALE_SECS)

def laneOf (lanes : List LaneStats) (app : Option Ns.App) (name : Bytes) : Option LaneStats :=
  lanes.find? fun l => l.name = name ∧ l.app = app

/-- The other applications whose workers ask for the queue's name. -/
def pollers (now : Nat) (lanes : List LaneStats) (app : Option Ns.App) (name : Bytes) :
    List Ns.App :=
  ((lanes.filter fun l => l.name = name ∧ l.app ≠ app).filter fun l =>
    isRecent (ageSecs now l.lastPolledMs)).filterMap (·.app)

/-- What `warnings_from` has to say of one queue. -/
def warning (stall now : Nat) (lanes : List LaneStats) (b : Backlog) : Option LaneWarning :=
  if b.counts.pending = 0 ∨ b.counts.oldestPendingCreatedMs = 0 then none
  else
    let oldest := (now - b.counts.oldestPendingCreatedMs) / 1000
    if oldest < stall then none
    else
      let lane := laneOf lanes b.app b.name
      let lastPolledSecs := lane.bind fun l => ageSecs now l.lastPolledMs
      let unattended := !isRecent lastPolledSecs
      let others := if unattended then pollers now lanes b.app b.name else []
      some
        { queue := b.name, app := b.app
          fault := .of unattended others
          pending := b.counts.pending, oldestPendingSecs := oldest, lastPolledSecs
          lastDrainedSecs := lane.bind fun l => ageSecs now l.lastDrainedMs }

/-- The most pending jobs first, and then by name. -/
def LaneWarning.Le (a b : LaneWarning) : Prop :=
  b.pending < a.pending ∨ b.pending = a.pending ∧ a.queue ≤ b.queue

instance : DecidableRel LaneWarning.Le := fun _ _ => inferInstanceAs (Decidable (_ ∨ _))

/-- `warnings_from`, with the threshold that is set. -/
def warningsFrom (stall now : Nat) (occupied : List Backlog) (lanes : List LaneStats) :
    List LaneWarning :=
  (occupied.filterMap (warning stall now lanes)).insertionSort LaneWarning.Le

def warnings (g : Config) (stall : Nat) (s : Ring) : List LaneWarning :=
  warningsFrom stall s.nowMs (byQueueWithApp g s) (lanes s)

/-! ## What a warning is made from -/

section
variable {g : Config} {stall : Nat} {s : Ring}

/-- The job can be taken now. -/
def Job.pends (e : Job) (now : Nat) : Prop := e.reservedUntil ≤ now ∧ e.availableAt ≤ now

instance (e : Job) (now : Nat) : Decidable (e.pends now) := inferInstanceAs (Decidable (_ ∧ _))

/-- A slot that a warning about the queue can be based on. -/
def Waits (g : Config) (s : Ring) (queue : Option Ns.App × Bytes) (created : Nat) : Prop :=
  ∃ i < g.slots, (s.job i).id ≠ 0 ∧ (s.job i).label = queue ∧ (s.job i).pends s.nowMs ∧
    (s.job i).createdAt = created

theorem byQueueWithApp_oldest {b : Backlog} (hb : b ∈ byQueueWithApp g s)
    (hne : b.counts.oldestPendingCreatedMs ≠ 0) :
    Waits g s (b.app, b.name) b.counts.oldestPendingCreatedMs := by
  obtain ⟨e, he, rfl⟩ := mem_map.1 ((perm_insertionSort ..).mem_iff.1 hb)
  refine Tally.collect_inv
    (fun k c => c.oldestPendingCreatedMs ≠ 0 → Waits g s k c.oldestPendingCreatedMs)
    (fun _ h => absurd rfl h) (fun i hi c hc => ?_) (fun _ h => absurd h (by simp)) e he hne
  · obtain ⟨hi, hid⟩ := mem_filter.1 hi
    simp only [Counts.count]
    split
    · exact hc
    · rename_i hres
      split
      · exact hc
      · rename_i hav
        dsimp only
        split
        · exact fun _ => ⟨i, mem_range.1 hi, by simpa using hid, rfl,
            ⟨not_lt.1 hres, not_lt.1 hav⟩, rfl⟩
        · exact hc

theorem LaneFault.of_eq_notDraining (unattended : Bool) (others : List Ns.App) :
    LaneFault.of unattended (if unattended then others else []) = .notDraining ↔
      unattended = false := by
  cases unattended with
  | false => simp [LaneFault.of]
  | true =>
    simp only [LaneFault.of, if_true]
    split <;> simp

theorem fault_eq_notDraining {w : LaneWarning} {now : Nat} {ls : List LaneStats} {b : Backlog}
    (h : warning stall now ls b = some w) : w.fault = .notDraining ↔
      ∃ l ∈ laneOf ls w.app w.queue, isRecent (ageSecs now l.lastPolledMs) = true := by
  simp only [warning] at h
  split at h
  · cases h
  split at h
  · cases h
  cases h
  rw [LaneFault.of_eq_notDraining, Bool.not_eq_false']
  cases laneOf ls b.app b.name with
  | none => simp [isRecent]
  | some l => simp

/-- **What a warning says.** A job of its queue waits that was made long enough ago, and whether the
queue is drained is read off its lane. -/
theorem mem_warnings {w : LaneWarning} (hw : w ∈ warnings g stall s) :
    (∃ created, Waits g s (w.app, w.queue) created ∧ stall ≤ (s.nowMs - created) / 1000) ∧
      (w.fault = .notDraining ↔ ∃ l ∈ laneOf (lanes s) w.app w.queue,
        isRecent (ageSecs s.nowMs l.lastPolledMs) = true) := by
  obtain ⟨b, hb, hbw⟩ := mem_filterMap.1 ((perm_insertionSort ..).mem_iff.1 hw)
  refine ⟨?_, fault_eq_notDraining hbw⟩
  simp only [warning] at hbw
  split at hbw
  · cases hbw
  rename_i hpend
  split at hbw
  · cases hbw
  rename_i hold
  cases hbw
  exact ⟨_, byQueueWithApp_oldest hb (not_or.1 hpend).2, not_lt.1 hold⟩

theorem mem_lanes {l : LaneStats} : l ∈ lanes s ↔ ∃ i < LANES, (s.lane i).stats = some l := by
  rw [lanes, (perm_insertionSort ..).mem_iff, mem_filterMap]
  simp only [mem_range]

end

end Askr.Queue
