import Askr.Conc.Lease
import Askr.Conc.Pool
import Askr.Queue.Ring

/-!
# What an action of a call does

A call in flight is at one of a few points (`Stage`): it has not started, a push has its id and
looks for a free slot, a pop looks for the best job or goes back to it, a delete or release looks
for its lease. `Stage.next` says what its next action does, and there are six things it can be
(`Act`): nothing to the slots, a push that draws its id, and one slot that is filled, reserved,
freed or given back.
-/

namespace Askr.Queue

open Conc Prog

/-! ## The fields of the ring -/

section
variable (s : Ring) (i : Nat) (e : Job)

@[simp] theorem Ring.put_self : (s.put i e).job i = e := by simp [Ring.put]
@[simp] theorem Ring.put_ne {j : Nat} (h : j ≠ i) : (s.put i e).job j = s.job j := by
  simp [Ring.put, h]
theorem Ring.of_put {s s' : Ring} {i : Nat} {e : Job} (h : s'.job = (s.put i e).job) :
    s'.job i = e ∧ ∀ j, j ≠ i → s'.job j = s.job j := by
  rw [h]
  exact ⟨s.put_self i e, fun _ hj => s.put_ne i e hj⟩

@[simp] theorem Ring.put_nextId : (s.put i e).nextId = s.nextId := rfl
@[simp] theorem Ring.put_nextLease : (s.put i e).nextLease = s.nextLease := rfl
@[simp] theorem Ring.put_nowMs : (s.put i e).nowMs = s.nowMs := rfl

end

section
variable (s : Ring) (qh : Nat) (name : Bytes) (f : Lane → Lane)

theorem markLane_eq : ∃ lane, markLane s qh name f = { s with lane } := by
  rw [markLane]
  split
  exacts [⟨_, rfl⟩, ⟨_, rfl⟩]

@[simp] theorem markLane_job : (markLane s qh name f).job = s.job := by
  obtain ⟨lane, h⟩ := markLane_eq s qh name f
  rw [h]
@[simp] theorem markLane_nextId : (markLane s qh name f).nextId = s.nextId := by
  obtain ⟨lane, h⟩ := markLane_eq s qh name f
  rw [h]
@[simp] theorem markLane_nextLease : (markLane s qh name f).nextLease = s.nextLease := by
  obtain ⟨lane, h⟩ := markLane_eq s qh name f
  rw [h]
@[simp] theorem markLane_nowMs : (markLane s qh name f).nowMs = s.nowMs := by
  obtain ⟨lane, h⟩ := markLane_eq s qh name f
  rw [h]

end

/-! ## Stages of a call -/

/-- The candidate of a pop is a slot, and a job was in it. -/
def Candidate (g : Config) (best : Option (Nat × Nat × Nat)) : Prop :=
  ∀ i a want, best = some (i, a, want) → i < g.slots ∧ want ≠ 0

/-- Where a push is, and the id it has drawn (`0` before). -/
def PushStage (g : Config) (queue payload : Bytes) (delay id : Nat) (p : Prog Ring Nat) : Prop :=
  (id = 0 ∧ p = push g queue payload delay) ∨
    id ≠ 0 ∧ (p = pushWith g queue payload delay id ∨
      ∃ created available w, (∀ i ∈ w, i < g.slots) ∧
        p = pushScan queue payload (g.hash queue) id created available w)

/-- Where a pop is. The clock it has read is not ahead. -/
def PopStage (g : Config) (queue : Bytes) (visibility nowMs : Nat)
    (p : Prog Ring (Option Reserved)) : Prop :=
  p = pop g queue visibility ∨ ∃ now ≤ nowMs, p = popAt g queue visibility now ∨
    ∃ w best, (∀ i ∈ w, i < g.slots) ∧ Candidate g best ∧
      p = popScan (g.hash queue) queue now visibility w best

/-- A delete or release that looks for its lease. -/
def LeaseStage (g : Config) (app : Option Ns.App) (lease : Nat) (act : Job → Job)
    (p : Prog Ring Bool) : Prop :=
  lease ≠ 0 ∧ ∃ w, (∀ i ∈ w, i < g.slots) ∧ p = leaseScan app lease act w

/-- Where a call is, and the id a push among them has drawn. -/
def Stage (g : Config) (nowMs : Nat) (c : Call) (id : Nat) (p : Prog Ring Res) : Prop :=
  match c.req with
  | .push queue payload delay =>
    ∃ q, PushStage g (Ns.key c.app queue) payload delay id q ∧ p = q.map .id
  | .pop queue visibility =>
    id = 0 ∧ ∃ q, PopStage g (Ns.key c.app queue) visibility nowMs q ∧ p = q.map .job
  | .delete lease =>
    id = 0 ∧ ∃ q, (q = .ret false ∨ LeaseStage g c.app lease Job.free q) ∧ p = q.map .flag
  | .release lease delay =>
    id = 0 ∧ ∃ q, (q = release g c.app lease delay ∨
      ∃ available, LeaseStage g c.app lease (Job.giveBack · available) q) ∧ p = q.map .flag

theorem delete_stage (g : Config) (app : Option Ns.App) (lease : Nat) :
    delete g app lease = .ret false ∨ LeaseStage g app lease Job.free (delete g app lease) := by
  rw [delete]
  split
  · exact .inl rfl
  · split
    · exact .inl rfl
    · rename_i hl
      exact .inr ⟨hl, _, fun i hi => List.mem_range.1 hi, rfl⟩

theorem stage_code (g : Config) (nowMs : Nat) (c : Call) : Stage g nowMs c 0 (code g c) := by
  obtain ⟨app, req⟩ := c
  cases req with
  | push queue payload delay => exact ⟨_, .inl ⟨rfl, rfl⟩, rfl⟩
  | pop queue visibility => exact ⟨rfl, _, .inl rfl, rfl⟩
  | delete lease => exact ⟨rfl, _, delete_stage g app lease, rfl⟩
  | release lease delay => exact ⟨rfl, _, .inl rfl, rfl⟩

theorem Stage.mono {g : Config} {nowMs nowMs' : Nat} {c : Call} {id : Nat} {p : Prog Ring Res}
    (h : Stage g nowMs c id p) (hle : nowMs ≤ nowMs') : Stage g nowMs' c id p := by
  obtain ⟨app, req⟩ := c
  cases req with
  | pop queue visibility =>
    obtain ⟨hid, q, hq | ⟨now, hnow, hq⟩, hp⟩ := h
    exacts [⟨hid, q, .inl hq, hp⟩, ⟨hid, q, .inr ⟨now, hnow.trans hle, hq⟩, hp⟩]
  | _ => exact h

/-! ## Actions -/

/-- The result tells of nothing that was done. -/
def Res.isQuiet : Res → Bool
  | .id n => n = 0
  | .job r => r.isNone
  | .flag b => !b

theorem Stage.isQuiet {g : Config} {nowMs id : Nat} {c : Call} {r : Res}
    (h : Stage g nowMs c id (.ret r)) : r.isQuiet = true := by
  obtain ⟨app, req⟩ := c
  cases req with
  | push queue payload delay =>
    obtain ⟨q, ⟨-, rfl⟩ | ⟨-, rfl | ⟨created, available, w, -, rfl⟩⟩, hp⟩ := h
    · rw [push] at hp
      split at hp
      · cases hp
        rfl
      · split at hp <;> cases hp
        rfl
    · cases hp
    · cases w <;> cases hp
      rfl
  | pop queue visibility =>
    obtain ⟨-, q, rfl | ⟨now, -, rfl | ⟨w, best, -, -, rfl⟩⟩, hp⟩ := h
    · rw [pop] at hp
      split at hp <;> cases hp
      rfl
    · cases hp
    · cases w <;> cases best <;> cases hp
      rfl
  | delete lease =>
    obtain ⟨-, q, rfl | ⟨-, w, -, rfl⟩, hp⟩ := h
    · cases hp
      rfl
    · cases w <;> cases hp
      rfl
  | release lease delay =>
    obtain ⟨-, q, rfl | ⟨available, -, w, -, rfl⟩, hp⟩ := h
    · rw [release] at hp
      split at hp
      · cases hp
        rfl
      · split at hp <;> cases hp
        rfl
    · cases w <;> cases hp
      rfl

/-- What is left of a call after an action that did nothing to the slots. -/
def GoesOn (g : Config) (nowMs : Nat) (c : Call) (id : Nat) (p : Prog Ring Res) : Prop :=
  Stage g nowMs c id p ∨ ∃ r, p = .ret r ∧ r.isQuiet = true

theorem GoesOn.isQuiet {g : Config} {nowMs id : Nat} {c : Call} {r : Res}
    (h : GoesOn g nowMs c id (.ret r)) : r.isQuiet = true := by
  rcases h with h | ⟨r', hr, hq⟩
  · exact h.isQuiet
  · cases hr
    exact hq

/-- **What one action does**, of the call `c` with the id `id`, from `s` to `s'`, with `p'` left to
do. -/
inductive Act (g : Config) (c : Call) (id : Nat) (s s' : Ring) (p' : Prog Ring Res) : Prop where
  | quiet : s'.job = s.job → s'.nextId = s.nextId → s'.nextLease = s.nextLease →
      s'.nowMs = s.nowMs → GoesOn g s.nowMs c id p' → Act g c id s s' p'
  | draws : id = 0 → s' = { s with nextId := s.nextId + 1 } →
      Stage g s.nowMs c (s.nextId + 1) p' → Act g c id s s' p'
  | fills (i created available : Nat) (queue payload : Bytes) (delay : Nat) :
      c.req = .push queue payload delay → id ≠ 0 → i < g.slots → (s.job i).id = 0 →
      s' = s.put i (pushed (Ns.key c.app queue) payload (g.hash (Ns.key c.app queue)) id created
        available) →
      p' = .ret (.id id) → Act g c id s s' p'
  | reserves (i now : Nat) (queue : Bytes) (visibility : Nat) :
      c.req = .pop queue visibility → i < g.slots → (s.job i).id ≠ 0 → now ≤ s.nowMs →
      (s.job i).ready now = true →
      s'.job = (s.put i ((s.job i).reserve (s.nextLease + 1) now visibility)).job →
      s'.nextId = s.nextId → s'.nextLease = s.nextLease + 1 → s'.nowMs = s.nowMs →
      (∃ attempts payload, p' = .ret (.job (some ⟨s.nextLease + 1, attempts, payload⟩))) →
      Act g c id s s' p'
  | frees (i lease : Nat) : c.req = .delete lease → i < g.slots → (s.job i).id ≠ 0 → lease ≠ 0 →
      (s.job i).lease = lease → s' = s.put i (s.job i).free → p' = .ret (.flag true) →
      Act g c id s s' p'
  | gives (i lease delay available : Nat) : c.req = .release lease delay → i < g.slots →
      (s.job i).id ≠ 0 → lease ≠ 0 → (s.job i).lease = lease →
      s' = s.put i ((s.job i).giveBack available) → p' = .ret (.flag true) → Act g c id s s' p'

section
variable {g : Config} {s : Ring} {app : Option Ns.App}

theorem quiet_same {c : Call} {id : Nat} {p' : Prog Ring Res} (h : GoesOn g s.nowMs c id p') :
    Act g c id s s p' := .quiet rfl rfl rfl rfl h

theorem mem_pushProbe {slots id i : Nat} (hi : i ∈ pushProbe slots id) (hs : slots ≠ 0) :
    i < slots := by
  obtain ⟨j, -, rfl⟩ := List.mem_map.1 hi
  exact Nat.mod_lt _ (Nat.pos_of_ne_zero hs)

theorem PushStage.next {queue payload : Bytes} {delay id : Nat} {q : Prog Ring Nat}
    (h : PushStage g (Ns.key app queue) payload delay id q) (hs : s.Unspent) :
    Act g ⟨app, .push queue payload delay⟩ id s (q.next s).1 ((q.next s).2.map .id) := by
  obtain ⟨rfl, rfl⟩ | ⟨hid, rfl | ⟨created, available, w, hw, rfl⟩⟩ := h
  · rw [push]
    split
    · exact quiet_same (.inr ⟨_, rfl, rfl⟩)
    · split
      · exact quiet_same (.inr ⟨_, rfl, rfl⟩)
      · rw [next_atom, hs.id]
        exact .draws rfl rfl ⟨_, .inr ⟨Nat.succ_ne_zero _, .inl rfl⟩, rfl⟩
  · refine quiet_same (.inl ⟨_, .inr ⟨hid, .inr ⟨_, _, _, fun i hi => ?_, rfl⟩⟩, rfl⟩)
    by_cases hslots : g.slots = 0
    · simp [pushProbe, hslots] at hi
    · exact mem_pushProbe hi hslots
  · cases w with
    | nil => exact quiet_same (.inr ⟨_, rfl, rfl⟩)
    | cons i w =>
      rw [pushScan, next_atom]
      split
      · rename_i hfree
        exact .fills i created available queue payload delay rfl hid (hw i (.head _)) hfree rfl rfl
      · exact quiet_same
          (.inl ⟨_, .inr ⟨hid, .inr ⟨_, _, w, fun j hj => hw j (.tail _ hj), rfl⟩⟩, rfl⟩)

theorem Candidate.better {best : Option (Nat × Nat × Nat)} (h : Candidate g best) {i : Nat}
    (hi : i < g.slots) {e : Job} (he : e.id ≠ 0) : Candidate g (better best i e) := by
  intro i' a want heq
  unfold Queue.better at heq
  split at heq
  · cases heq
    exact ⟨hi, he⟩
  · split at heq
    · cases heq
      exact ⟨hi, he⟩
    · exact h i' a want heq

theorem PopStage.next {queue : Bytes} {visibility : Nat} {q : Prog Ring (Option Reserved)}
    (h : PopStage g (Ns.key app queue) visibility s.nowMs q) (hs : s.Unspent) :
    Act g ⟨app, .pop queue visibility⟩ 0 s (q.next s).1 ((q.next s).2.map .job) := by
  obtain rfl | ⟨now, hnow, rfl | ⟨w, best, hw, hbest, rfl⟩⟩ := h
  · rw [pop]
    split
    · exact quiet_same (.inr ⟨_, rfl, rfl⟩)
    · exact quiet_same (.inl ⟨rfl, _, .inr ⟨_, le_rfl, .inl rfl⟩, rfl⟩)
  · exact .quiet (by simp [popAt, markPolled]) (by simp [popAt, markPolled])
      (by simp [popAt, markPolled]) (by simp [popAt, markPolled])
      (.inl ⟨rfl, _, .inr ⟨now, hnow, .inr ⟨_, none, fun i hi => List.mem_range.1 hi,
        fun _ _ _ h => (by cases h), rfl⟩⟩, rfl⟩)
  · cases w with
    | nil =>
      obtain _ | ⟨i, a, want⟩ := best
      · exact quiet_same (.inr ⟨_, rfl, rfl⟩)
      · obtain ⟨hi, hwant⟩ := hbest i a want rfl
        rw [popScan, popTake, next_atom]
        split
        · exact quiet_same (.inr ⟨_, rfl, rfl⟩)
        · rename_i hid
          split
          · exact quiet_same (.inr ⟨_, rfl, rfl⟩)
          · rename_i hready
            simp only [hs.lease]
            refine .reserves i now queue visibility rfl hi (not_not.1 hid ▸ hwant) hnow
              (by simpa using hready) ?_ ?_ ?_ ?_ ⟨_, _, rfl⟩ <;> simp [markDrained]
    | cons i w =>
      rw [popScan, next_read]
      refine quiet_same (.inl ⟨rfl, _, .inr ⟨now, hnow, .inr ⟨w, _, fun j hj => hw j (.tail _ hj),
        ?_, rfl⟩⟩, rfl⟩)
      split
      · exact hbest
      · rename_i hjob
        split
        exacts [hbest.better (hw i (.head _)) fun h => hjob (.inl h), hbest]

/-- A delete or release on its way: the slot it acts on has the lease. -/
theorem LeaseStage.next {lease : Nat} {act : Job → Job} {q : Prog Ring Bool}
    (h : LeaseStage g app lease act q) :
    (q.next s).1 = s ∧ (LeaseStage g app lease act (q.next s).2 ∨ (q.next s).2 = .ret false) ∨
      ∃ i < g.slots, (s.job i).id ≠ 0 ∧ (s.job i).lease = lease ∧
        (q.next s).1 = s.put i (act (s.job i)) ∧ (q.next s).2 = .ret true := by
  obtain ⟨hl, w, hw, rfl⟩ := h
  cases w with
  | nil => exact .inl ⟨rfl, .inr rfl⟩
  | cons i w =>
    rw [leaseScan, next_atom]
    split
    · rename_i hslot
      split
      · exact .inr ⟨i, hw i (.head _), hslot.1, hslot.2, rfl, rfl⟩
      · exact .inl ⟨rfl, .inr rfl⟩
    · exact .inl ⟨rfl, .inl ⟨hl, w, fun j hj => hw j (.tail _ hj), rfl⟩⟩

end

theorem Stage.next {g : Config} {s : Ring} {c : Call} {id : Nat} {p : Prog Ring Res}
    (h : Stage g s.nowMs c id p) (hs : s.Unspent) : Act g c id s (p.next s).1 (p.next s).2 := by
  obtain ⟨app, req⟩ := c
  cases req with
  | push queue payload delay =>
    obtain ⟨q, hq, rfl⟩ := h
    simpa only [next_map] using hq.next hs
  | pop queue visibility =>
    obtain ⟨rfl, q, hq, rfl⟩ := h
    simpa only [next_map] using hq.next hs
  | delete lease =>
    obtain ⟨rfl, q, hq, rfl⟩ := h
    rw [next_map]
    obtain rfl | hq := hq
    · exact quiet_same (.inr ⟨_, rfl, rfl⟩)
    · obtain ⟨hs, hq' | hq'⟩ | ⟨i, hi, hid, hlease, hs, hq'⟩ := hq.next (s := s)
      · rw [hs]
        exact quiet_same (.inl ⟨rfl, _, .inr hq', rfl⟩)
      · rw [hs, hq']
        exact quiet_same (.inr ⟨_, rfl, rfl⟩)
      · rw [hq']
        exact .frees i lease rfl hi hid hq.1 hlease hs rfl
  | release lease delay =>
    obtain ⟨rfl, q, hq, rfl⟩ := h
    rw [next_map]
    obtain rfl | ⟨available, hq⟩ := hq
    · rw [release]
      split
      · exact quiet_same (.inr ⟨_, rfl, rfl⟩)
      · split
        · exact quiet_same (.inr ⟨_, rfl, rfl⟩)
        · rename_i hl
          exact quiet_same (.inl ⟨rfl, _,
            .inr ⟨_, hl, _, fun i hi => List.mem_range.1 hi, rfl⟩, rfl⟩)
    · obtain ⟨hs, hq' | hq'⟩ | ⟨i, hi, hid, hlease, hs, hq'⟩ := hq.next (s := s)
      · rw [hs]
        exact quiet_same (.inl ⟨rfl, _, .inr ⟨available, hq'⟩, rfl⟩)
      · rw [hs, hq']
        exact quiet_same (.inr ⟨_, rfl, rfl⟩)
      · rw [hq']
        exact .gives i lease delay available rfl hi hid hq.1 hlease hs rfl

end Askr.Queue
