import Askr.Queue.Alone
import Askr.Queue.Refine
import Mathlib.Data.List.Induction
import Mathlib.Data.List.Nodup

/-!
# Leases fence, and no job is lost

What the queue promises of every schedule of calls, at the granularity of its slot locks and with a
clock that does not go back, as long as neither counter is at its last number. `leases_fence` is
about leases: they are distinct, each ends once at most and only as the last one of its job, and a
job is out under one lease at a time until its deadline. `jobs_kept` is about jobs: what was pushed
is in one slot, as it was pushed, until it is deleted. Both are read off the simulation (`sim_run`).

The counters are words, and a schedule can be long enough for them to come round: a lease is then
handed out a second time (`leases_repeat`), and two jobs have one id (`ids_repeat`).
-/

namespace Askr.Queue

open Conc List Pool Run

/-! ## Leases -/

/-- **Leases fence.** In every schedule of pushes, pops, deletes and releases: what was noted of the
calls is fenced. No lease is handed out twice; none is good for a delete or release twice, nor after
its job was reserved again; and a job is not handed out again before its reservation is over, unless
its holder released it. The leases noted are the ones that the pops returned, and the ones that
deletes and releases returned true for. -/
theorem leases_fence (g : Config) (nowMs : Nat) (es : List (Event Call Nat))
    (hunspent : Unspent g nowMs es) :
    Lease.Fenced (history g nowMs es).labels ∧
      (history g nowMs es).labels.filterMap Lease.Label.gives =
        ((history g nowMs es).pool.done.filterMap gave).reverse ∧
      (history g nowMs es).labels.filterMap Lease.Label.ends =
        ((history g nowMs es).pool.done.filterMap ended).reverse := by
  obtain ⟨hrec, a, ids, htr, -, -⟩ := sim_run hunspent
  exact ⟨htr.kept.1, hrec.gives, hrec.ends⟩

theorem leases_fence_contended : Lease.Fenced (history ring16 5000 contended).labels ∧
    (history ring16 5000 contended).pool.done.filterMap gave = [2, 1] ∧
    (history ring16 5000 contended).pool.done.filterMap ended = [2] := by
  obtain ⟨hfenced, hgives, hends⟩ := leases_fence ring16 5000 contended unspent_contended
  rw [labels_contended, eq_comm, reverse_eq_iff] at hgives hends
  exact ⟨hfenced, hgives, hends⟩

/-! ## Jobs -/

/-- Exactly one slot carries the job, as it was pushed. -/
def OneSlot (g : Config) (s : Ring) (id : Nat) (data : Data) : Prop :=
  ∃ i < g.slots, ((s.job i).id = id ∧ ((s.job i).payload, (s.job i).queueHash) = data) ∧
    ∀ i' < g.slots, (s.job i').id = id → i' = i

theorem push_act {g : Config} {c : Call} {id : Nat} {s s' : Ring} {p' : Prog Ring Res}
    (h : Act g c id s s' p') {queue payload : Bytes} {delay : Nat}
    (hreq : c.req = .push queue payload delay) :
    s'.job = s.job ∨ (id ≠ 0 ∧ p' = .ret (.id id)) := by
  cases h with
  | quiet hjob => exact .inl hjob
  | draws _ hs => exact .inl (by rw [hs])
  | fills i created available queue' payload' delay' _ hid _ _ _ hp => exact .inr ⟨hid, hp⟩
  | reserves i now queue' visibility hreq' => rw [hreq] at hreq'; cases hreq'
  | frees i lease hreq' => rw [hreq] at hreq'; cases hreq'
  | gives i lease delay' available hreq' => rw [hreq] at hreq'; cases hreq'

/-- **No job is lost or duplicated.** In every schedule: a job whose push has returned an id is in
exactly one slot, with its payload and the hash of its queue, unless a delete has returned true for
a lease of it; no two slots carry one id; and an action of a push that changes a slot returns an id,
so a push that returns `0` has changed none. -/
theorem jobs_kept (g : Config) (nowMs : Nat) (es : List (Event Call Nat))
    (hunspent : Unspent g nowMs es) (hleft : (history g nowMs es).pool.shared.Unspent) :
    (∀ r ∈ (history g nowMs es).pool.done, ∀ id data, made g r = some (id, data) →
      (∃ l, .drop l id ∈ (history g nowMs es).labels) ∨
        OneSlot g (history g nowMs es).pool.shared id data) ∧
    (∀ i < g.slots, ∀ i' < g.slots, ((history g nowMs es).pool.shared.job i).id ≠ 0 →
      ((history g nowMs es).pool.shared.job i).id = ((history g nowMs es).pool.shared.job i').id →
      i = i') ∧ ∀ t c p queue payload delay, (history g nowMs es).pool.thread t = some (c, p) →
      c.req = .push queue payload delay →
      (history g nowMs (es ++ [.step t])).pool.shared.job = (history g nowMs es).pool.shared.job ∨
        ∃ id ≠ 0, (history g nowMs (es ++ [.step t])).pool.done =
          ⟨t, c, .id id⟩ :: (history g nowMs es).pool.done := by
  obtain ⟨hrec, a, ids, htr, hrep, htick⟩ := sim_run hunspent
  refine ⟨fun r hr id data hmade => ?_, hrep.slots.unique,
    fun t c p queue payload delay ht hreq => ?_⟩
  · have hput : (id, data) ∈ (history g nowMs es).labels.filterMap puts := by
      rw [hrec.puts]
      exact mem_reverse.2 (mem_filterMap.2 ⟨r, hr, hmade⟩)
    obtain ⟨x, hx, hx'⟩ := mem_filterMap.1 hput
    cases x with
    | put n b =>
      cases hx'
      refine (htr.kept.2.present id data hx).imp_right fun ⟨it, hit, hdata⟩ => ?_
      obtain ⟨hid, i, hi, rfl⟩ := hrep.slots.found id it hit
      have hslot := hrep.slots.slot i hi hid
      rw [hit] at hslot
      cases hslot
      exact ⟨i, hi, ⟨rfl, hdata⟩,
        fun i' hi' heq => (hrep.slots.unique i hi i' hi' hid heq.symm).symm⟩
    | _ => cases hx'
  · have hrun : (history g nowMs (es ++ [.step t])).pool =
        (history g nowMs es).pool.exec (code g) tick (.step t) := by
      rw [history, runs_append]
      rfl
    rw [hrun]
    rcases exec_cases (code g) tick (history g nowMs es).pool (.step t) with
      he | ⟨t', c', hec, -⟩ | ⟨t', c', p', hec, ht', he⟩ | ⟨d, hec, -⟩
    · exact .inl (by rw [he])
    · cases hec
    · cases hec
      rw [ht] at ht'
      cases ht'
      rw [he, settle_shared]
      refine (push_act ((htick.flight t c p ht).next hleft) hreq).imp_right fun ⟨hid, hp⟩ => ?_
      exact ⟨_, hid, by rw [hp]; rfl⟩
    · cases hec

theorem jobs_kept_contended :
    OneSlot ring16 (history ring16 5000 contended).pool.shared 2 ([8], ring16.hash [113]) := by
  obtain ⟨hjobs, -⟩ := jobs_kept ring16 5000 contended unspent_contended (by decide +kernel)
  have hmade : (2, [8], ring16.hash [113]) ∈
      (history ring16 5000 contended).pool.done.filterMap (made ring16) := by decide +kernel
  obtain ⟨r, hr, hid⟩ := mem_filterMap.1 hmade
  refine (hjobs r hr 2 _ hid).resolve_left fun ⟨l, hl⟩ => ?_
  rw [labels_contended] at hl
  simp at hl

/-! ## When a counter comes round -/

/-- The next call, made by a caller that is alone, and what it returned. -/
def inTurn (g : Config) (x : Ring × List (Ret Call Res)) (c : Call) :
    Ring × List (Ret Call Res) :=
  (((code g c).run x.1).1, ⟨0, c, ((code g c).run x.1).2⟩ :: x.2)

/-- Calls one after the other are a schedule. -/
theorem exists_schedule (g : Config) (nowMs : Nat) (cs : List Call) :
    ∃ es, (history g nowMs es).pool.thread 0 = none ∧
      ((history g nowMs es).pool.shared, (history g nowMs es).pool.done) =
        runs (inTurn g) (.init nowMs, []) cs := by
  induction cs using reverseRecOn with
  | nil => exact ⟨[], rfl, rfl⟩
  | append_singleton cs c ih =>
    obtain ⟨es, hidle, hrun⟩ := ih
    obtain ⟨m, hm⟩ := runs_whole (code g) tick c hidle
    refine ⟨es ++ .call 0 c :: replicate m (.step 0), ?_, ?_⟩
    all_goals
      rw [history_pool, runs_append, ← history_pool, hm]
    · exact hidle
    · rw [runs_append, ← hrun]
      rfl

section
variable {g : Config} {s : Ring} {queue : Bytes}

/-- A job that is popped for no time is there to be popped again, under the next lease. -/
theorem pop_again (hw : ∃ i < g.slots, (s.job i).waits (g.hash queue) s.nowMs) :
    let out := (pop g queue 0).run s
    (∃ i < g.slots, (out.1.job i).waits (g.hash queue) out.1.nowMs) ∧
      out.1.nextLease = u64Add s.nextLease 1 ∧
      ∃ r, out.2 = some r ∧ r.id = u64Add s.nextLease 1 := by
  intro out
  obtain ⟨i, hi, hwi⟩ := hw
  rcases pop_run g queue 0 s with ⟨lane, -, hno⟩ | ⟨lane, i, hi, hw, -, hrun⟩
  · exact absurd hwi (hno i hi)
  · rw [show out = _ from hrun]
    refine ⟨⟨i, hi, ?_⟩, rfl, _, rfl, rfl⟩
    obtain ⟨hid, hqh, hready⟩ := hw
    have hnow : later s.nowMs 0 ≤ s.nowMs := by simp [later, satAdd, satMul]
    have hjob : (s.put i ((s.job i).reserve (u64Add s.nextLease 1) s.nowMs 0)).job i =
        (s.job i).reserve (u64Add s.nextLease 1) s.nowMs 0 := Ring.put_self ..
    rw [hjob]
    refine ⟨hid, hqh, ?_⟩
    simp only [Job.ready, Bool.and_eq_true] at hready ⊢
    exact ⟨hready.1, by simp [Job.reserve, hnow]⟩

/-- A push into a full ring draws an id and does nothing else. -/
theorem push_full {payload : Bytes} (h : ¬ Refused g payload) (hfull : ¬ HasFree g s)
    (queue : Bytes) (delay : Nat) :
    (push g queue payload delay).run s = ({ s with nextId := u64Add s.nextId 1 }, 0) := by
  obtain ⟨hslots, hlen⟩ := not_or.1 h
  rw [push, if_neg hslots, if_neg hlen, Prog.run_atom, pushWith, Prog.run_read, pushScan_run]
  cases hf : (pushProbe g.slots (u64Add s.nextId 1)).find? fun i => (s.job i).id = 0 with
  | none => rfl
  | some i =>
    refine absurd ⟨i, mem_pushProbe (mem_of_find?_eq_some hf) hslots, ?_⟩ hfull
    simpa using find?_some hf

end

/-- A push and the pops after it, outside of any application. -/
def popping (k : Nat) : List Call :=
  ⟨none, .push [113] [7] 0⟩ :: replicate k ⟨none, .pop [113] 0⟩

/-- The leases that the pops return, one after the other. -/
theorem popping_gave (k : Nat) :
    let x := runs (inTurn ring16) (.init 0, []) (popping k)
    (∃ i < ring16.slots, (x.1.job i).waits (ring16.hash [113]) x.1.nowMs) ∧
      x.1.nextLease = k % U64 ∧
      x.2.filterMap gave = ((range k).map fun j => (j + 1) % U64).reverse := by
  induction k with
  | zero =>
    refine ⟨⟨1, by decide, ?_⟩, rfl, rfl⟩
    exact ⟨by decide, by decide, by decide⟩
  | succ k ih =>
    rw [popping, replicate_succ', ← cons_append, ← popping, runs_append]
    generalize runs (inTurn ring16) (.init 0, []) (popping k) = x at ih ⊢
    obtain ⟨hw, hlease, hgave⟩ := ih
    obtain ⟨hw', hlease', r, hr, hid⟩ := pop_again hw
    have hnext : u64Add x.1.nextLease 1 = (k + 1) % U64 := by rw [hlease, u64Add, Nat.mod_add_mod]
    have hcode : code ring16 ⟨none, .pop [113] 0⟩ = (pop ring16 [113] 0).map .job := rfl
    simp only [runs_cons, runs_nil, inTurn, hcode, Prog.run_map, hr]
    refine ⟨hw', hlease'.trans hnext, ?_⟩
    have hlast : gave ⟨0, ⟨none, .pop [113] 0⟩, .job (some r)⟩ = some ((k + 1) % U64) :=
      congrArg some (hid.trans hnext)
    rw [filterMap_cons, hlast, hgave, range_succ, map_append, reverse_append]
    rfl

/-- **Leases come round.** A job that is popped `2 ^ 64 + 1` times goes out twice under one
lease. -/
theorem leases_repeat : ∃ es, ¬ ((history ring16 0 es).pool.done.filterMap gave).Nodup := by
  obtain ⟨es, -, hrun⟩ := exists_schedule ring16 0 (popping (U64 + 1))
  refine ⟨es, fun hnodup => ?_⟩
  obtain ⟨-, -, hgave⟩ := popping_gave (U64 + 1)
  rw [← hrun] at hgave
  rw [hgave, nodup_reverse] at hnodup
  have heq := inj_on_of_nodup_map hnodup (mem_range.2 (Nat.succ_pos U64))
    (mem_range.2 (Nat.lt_succ_self U64)) (by rw [Nat.add_mod_left])
  exact absurd heq (by decide)

/-- Sixteen pushes fill the ring. -/
def filled : Ring := (runs (inTurn ring16) (.init 0, [])
  (replicate 16 ⟨none, .push [113] [7] 0⟩)).1

/-- Pushes into a full ring move the counter of the ids. -/
theorem filled_pushes (k : Nat) : (runs (inTurn ring16) (.init 0, [])
    (replicate (16 + k) ⟨none, .push [113] [7] 0⟩)).1 =
      { filled with nextId := (16 + k) % U64 } := by
  induction k with
  | zero => rfl
  | succ k ih =>
    rw [← Nat.add_assoc, replicate_succ', runs_append]
    have hfull : ¬ HasFree ring16 { filled with nextId := (16 + k) % U64 } := by
      have hno : ¬ HasFree ring16 filled := by decide +kernel
      exact hno
    have hrefused : ¬ Refused ring16 [7] := not_or.2 ⟨by decide, by decide⟩
    have hpush := push_full hrefused hfull [113] 0
    have hcode : code ring16 ⟨none, .push [113] [7] 0⟩ = (push ring16 [113] [7] 0).map .id := rfl
    simp only [runs_cons, runs_nil, inTurn, hcode, Prog.run_map, ih, hpush, u64Add,
      Nat.mod_add_mod]

/-- **Ids come round.** The ring is full and the counter of the ids is back at zero; a job is popped
and deleted, and the job that is pushed then has the id of one that is still there. -/
theorem ids_repeat : ∃ es, ∃ i < ring16.slots, ∃ i' < ring16.slots, i ≠ i' ∧
    ((history ring16 0 es).pool.shared.job i).id ≠ 0 ∧
    ((history ring16 0 es).pool.shared.job i).id =
      ((history ring16 0 es).pool.shared.job i').id := by
  obtain ⟨k, hk⟩ : ∃ k, 16 + k = U64 := ⟨U64 - 16, by decide⟩
  obtain ⟨es, -, hrun⟩ := exists_schedule ring16 0
    (replicate (16 + k) ⟨none, .push [113] [7] 0⟩ ++
      [⟨none, .pop [113] 60⟩, ⟨none, .pop [113] 60⟩, ⟨none, .delete 2⟩,
        ⟨none, .push [113] [8] 0⟩])
  have hfilled : (runs (inTurn ring16) (.init 0, [])
      (replicate (16 + k) ⟨none, .push [113] [7] 0⟩)).1 = { filled with nextId := 0 } := by
    rw [filled_pushes, hk, Nat.mod_self]
  have hshared := congrArg Prod.fst hrun
  simp only [runs_append, runs_cons, runs_nil, inTurn, hfilled] at hshared
  refine ⟨es, 1, by decide, 2, by decide, by decide, ?_⟩
  rw [hshared]
  decide +kernel

end Askr.Queue
