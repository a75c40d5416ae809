import Askr.Queue.Alone

/-!
# What a call does to one slot

With nobody else running and whatever the ring is like, a call leaves a slot as it is, or it is the
push that filled it, the pop that reserved its job, or the delete or release that let go of it, each
at the time of the call (`Change`, `call_change`). Only a pop does anything to the lanes: its queue
is marked as polled, and as drained if there was a job (`call_lane`).
-/

namespace Askr.Queue

open Conc Prog

/-- **What a call has made of a slot**: `e` is what is in it now, `s` the ring before. -/
inductive Change (g : Config) (s : Ring) (c : Call) (i : Nat) (e : Job) : Prop where
  | same : e = s.job i → Change g s c i e
  | filled (queue payload : Bytes) (delay : Nat) : c.req = .push queue payload delay →
      e = pushed (Ns.key c.app queue) payload (g.hash (Ns.key c.app queue)) (u64Add s.nextId 1)
        s.nowMs (later s.nowMs delay) → Change g s c i e
  | reserved (lease visibility : Nat) : e = (s.job i).reserve lease s.nowMs visibility →
      Change g s c i e
  | freed : e = (s.job i).free → Change g s c i e
  | released (delay : Nat) : e = (s.job i).giveBack (later s.nowMs delay) → Change g s c i e

section
variable {g : Config} {s : Ring}

theorem Ring.put_cases (s : Ring) (i j : Nat) (e : Job) :
    (s.put i e).job j = s.job j ∨ j = i ∧ (s.put i e).job j = e := by
  by_cases hji : j = i
  · subst hji
    exact .inr ⟨rfl, Ring.put_self s j e⟩
  · exact .inl (Ring.put_ne s i e hji)

theorem push_cases (g : Config) (queue payload : Bytes) (delay : Nat) (s : Ring) :
    (∃ nextId, ((push g queue payload delay).run s).1 = { s with nextId }) ∨
      ∃ i, ((push g queue payload delay).run s).1 =
        { s.put i (pushed queue payload (g.hash queue) (u64Add s.nextId 1) s.nowMs
            (later s.nowMs delay)) with nextId := u64Add s.nextId 1 } := by
  rw [push]
  split
  · exact .inl ⟨_, rfl⟩
  · split
    · exact .inl ⟨_, rfl⟩
    · rw [run_atom, pushWith, run_read, pushScan_run]
      cases (pushProbe g.slots (u64Add s.nextId 1)).find? fun i => (s.job i).id = 0 with
      | none => exact .inl ⟨_, rfl⟩
      | some i => exact .inr ⟨i, rfl⟩

theorem leaseScan_cases (app : Option Ns.App) (lease : Nat) (act : Job → Job) (w : List Nat)
    (s : Ring) : ((leaseScan app lease act w).run s).1 = s ∨
      ∃ i, ((leaseScan app lease act w).run s).1 = s.put i (act (s.job i)) := by
  rw [leaseScan_run]
  cases w.find? fun i => (s.job i).id ≠ 0 ∧ (s.job i).lease = lease with
  | none => exact .inl rfl
  | some i =>
    rw [Option.elim_some]
    split
    exacts [.inr ⟨i, rfl⟩, .inl rfl]

theorem delete_cases (g : Config) (app : Option Ns.App) (lease : Nat) (s : Ring) :
    ((delete g app lease).run s).1 = s ∨
      ∃ i, ((delete g app lease).run s).1 = s.put i (s.job i).free := by
  rw [delete]
  split
  · exact .inl rfl
  · split
    exacts [.inl rfl, leaseScan_cases app lease _ _ s]

theorem release_cases (g : Config) (app : Option Ns.App) (lease delay : Nat) (s : Ring) :
    ((release g app lease delay).run s).1 = s ∨ ∃ i, ((release g app lease delay).run s).1 =
        s.put i ((s.job i).giveBack (later s.nowMs delay)) := by
  rw [release]
  split
  · exact .inl rfl
  · split
    exacts [.inl rfl, leaseScan_cases app lease _ _ s]

theorem call_change (g : Config) (s : Ring) (c : Call) (i : Nat) :
    Change g s c i (((code g c).run s).1.job i) := by
  obtain ⟨app, req⟩ := c
  cases req with
  | push queue payload delay =>
    simp only [code, run_map]
    rcases push_cases g (Ns.key app queue) payload delay s with ⟨nextId, hrun⟩ | ⟨j, hrun⟩
    · rw [hrun]
      exact .same rfl
    · rw [hrun]
      rcases s.put_cases j i _ with hput | ⟨-, hput⟩
      exacts [.same hput, .filled queue payload delay rfl hput]
  | pop queue visibility =>
    simp only [code, run_map]
    rcases pop_run g (Ns.key app queue) visibility s with
      ⟨lane, hrun, -⟩ | ⟨lane, j, -, -, -, hrun⟩
    · rw [hrun]
      exact .same rfl
    · rw [hrun]
      rcases s.put_cases j i _ with hput | ⟨rfl, hput⟩
      exacts [.same hput, .reserved _ visibility hput]
  | delete lease =>
    simp only [code, run_map]
    rcases delete_cases g app lease s with hrun | ⟨j, hrun⟩
    · rw [hrun]
      exact .same rfl
    · rw [hrun]
      rcases s.put_cases j i _ with hput | ⟨rfl, hput⟩
      exacts [.same hput, .freed hput]
  | release lease delay =>
    simp only [code, run_map]
    rcases release_cases g app lease delay s with hrun | ⟨j, hrun⟩
    · rw [hrun]
      exact .same rfl
    · rw [hrun]
      rcases s.put_cases j i _ with hput | ⟨rfl, hput⟩
      exacts [.same hput, .released delay hput]

theorem call_nowMs (g : Config) (s : Ring) (c : Call) : ((code g c).run s).1.nowMs = s.nowMs := by
  obtain ⟨app, req⟩ := c
  cases req with
  | push queue payload delay =>
    simp only [code, run_map]
    exact push_nowMs g _ payload delay s
  | pop queue visibility =>
    simp only [code, run_map]
    exact pop_nowMs g _ visibility s
  | delete lease =>
    simp only [code, run_map]
    rcases delete_cases g app lease s with hrun | ⟨j, hrun⟩ <;> rw [hrun]
    rfl
  | release lease delay =>
    simp only [code, run_map]
    rcases release_cases g app lease delay s with hrun | ⟨j, hrun⟩ <;> rw [hrun]
    rfl

/-! ## The lanes -/

/-- What `markLane` makes of the table. -/
def markLanes (lane : Nat → Lane) (qh : Nat) (name : Bytes) (f : Lane → Lane) : Nat → Lane :=
  match laneFor lane qh name with
  | (lane, none) => lane
  | (lane, some i) => Function.update lane i (f (lane i))

theorem markLane_lane (s : Ring) (qh : Nat) (name : Bytes) (f : Lane → Lane) :
    (markLane s qh name f).lane = markLanes s.lane qh name f := by
  rw [markLane, markLanes]
  rcases laneFor s.lane qh name with ⟨lane, _ | i⟩ <;> rfl

def Lane.polled (now : Nat) (l : Lane) : Lane := { l with lastPolledMs := now }
def Lane.drained (now : Nat) (l : Lane) : Lane := { l with lastDrainedMs := now }

/-- The lanes after a pop of the queue `name` that had a job, or had none. -/
def poppedLanes (g : Config) (s : Ring) (name : Bytes) (job : Bool) : Nat → Lane :=
  let lane := markLanes s.lane (g.hash name) name (Lane.polled s.nowMs)
  if job then markLanes lane (g.hash name) name (Lane.drained s.nowMs) else lane

theorem popTake_lane (qh : Nat) (queue : Bytes) (now visibility i want : Nat) (s : Ring) :
    ((popTake qh queue now visibility i want).run s).1.lane = s.lane ∨
      ((popTake qh queue now visibility i want).run s).1.lane =
        markLanes s.lane qh queue (Lane.drained now) := by
  rw [popTake, run_atom]
  split
  · exact .inl rfl
  · split
    exacts [.inl rfl, .inr (markLane_lane ..)]

theorem pop_lane (queue : Bytes) (visibility : Nat) (s : Ring) (hslots : g.slots ≠ 0) :
    ∃ job, ((pop g queue visibility).run s).1.lane = poppedLanes g s queue job := by
  rw [pop, if_neg hslots, run_read, popAt, run_atom, popScan_run]
  generalize List.foldl _ _ _ = best
  cases best with
  | none => exact ⟨false, markLane_lane ..⟩
  | some x =>
    obtain ⟨i, a, want⟩ := x
    rw [popScan]
    rcases popTake_lane (g.hash queue) queue s.nowMs visibility i want
      (markPolled s (g.hash queue) queue s.nowMs) with h | h
    · exact ⟨false, h.trans (markLane_lane ..)⟩
    · refine ⟨true, h.trans ?_⟩
      rw [markPolled, markLane_lane]
      rfl

theorem call_lane (hslots : g.slots ≠ 0) (s : Ring) (c : Call) :
    (∃ queue visibility job, c.req = .pop queue visibility ∧
      ((code g c).run s).1.lane = poppedLanes g s (Ns.key c.app queue) job) ∨
    (∀ queue visibility, c.req ≠ .pop queue visibility) ∧ ((code g c).run s).1.lane = s.lane := by
  obtain ⟨app, req⟩ := c
  cases req with
  | push queue payload delay =>
    simp only [code, run_map]
    refine .inr ⟨by simp, ?_⟩
    rcases push_cases g (Ns.key app queue) payload delay s with ⟨nextId, hrun⟩ | ⟨j, hrun⟩ <;>
      rw [hrun]
    rfl
  | pop queue visibility =>
    simp only [code, run_map]
    obtain ⟨job, hlane⟩ := pop_lane (Ns.key app queue) visibility s hslots
    exact .inl ⟨queue, visibility, job, rfl, hlane⟩
  | delete lease =>
    simp only [code, run_map]
    refine .inr ⟨by simp, ?_⟩
    rcases delete_cases g app lease s with hrun | ⟨j, hrun⟩ <;> rw [hrun]
    rfl
  | release lease delay =>
    simp only [code, run_map]
    refine .inr ⟨by simp, ?_⟩
    rcases release_cases g app lease delay s with hrun | ⟨j, hrun⟩ <;> rw [hrun]
    rfl

end

end Askr.Queue
