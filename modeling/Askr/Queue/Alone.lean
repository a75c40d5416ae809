import Askr.Queue.Act
import Mathlib.Data.Set.Function

/-!
# The ring, one call at a time

What the operations do when nobody else runs. A push takes a free slot, a pop the first of the jobs
that wait in its queue, by the time they became available and then by id, and a delete or a release
the slot that has the lease (`push_run`, `pop_run`, `leaseScan_run`).

The ring is tidy (`Tidy`) when no two jobs share an id or a lease, the counters are past both, and
every job carries the name of its queue and its hash; the names are those in a set on which the hash
tells names apart. Every call keeps it so (`Tidy.push`, `Tidy.pop`, `Tidy.delete`,
`Tidy.release`).
-/

namespace Askr.Queue

open Conc Prog List Nat

variable {g : Config} {s : Ring}

/-! ## Push -/

/-- The loop of `push` fills the first free slot. -/
theorem pushScan_run (queue payload : Bytes) (qh id created available : Nat) (w : List Nat)
    (s : Ring) : (pushScan queue payload qh id created available w).run s =
      (w.find? fun i => (s.job i).id = 0).elim (s, 0) fun i =>
        (s.put i (pushed queue payload qh id created available), id) := by
  induction w with
  | nil => rfl
  | cons i w ih =>
    rw [pushScan, run_atom]
    by_cases hfree : (s.job i).id = 0
    · rw [if_pos hfree, find?_cons_of_pos (by simpa using hfree)]
      rfl
    · rw [if_neg hfree, find?_cons_of_neg (by simpa using hfree)]
      exact ih

theorem mem_pushProbe_of_lt {slots i : Nat} (id : Nat) (hi : i < slots) :
    i ∈ pushProbe slots id := by
  have hpos : 0 < slots := zero_lt_of_lt hi
  have hstart : id % slots < slots := mod_lt _ hpos
  refine mem_map.2 ⟨(i + (slots - id % slots)) % slots,
    mem_range.2 (mod_lt _ hpos), ?_⟩
  rw [add_mod_mod, show id % slots + (i + (slots - id % slots)) = i + slots by omega,
    add_mod_right, mod_eq_of_lt hi]

/-- What `push` refuses whatever is in the ring. -/
def Refused (g : Config) (payload : Bytes) : Prop := g.slots = 0 ∨ payload.length > PAYLOAD_MAX

theorem push_refused {payload : Bytes} (h : Refused g payload) (queue : Bytes) (delay : Nat)
    (s : Ring) : (push g queue payload delay).run s = (s, 0) := by
  rw [push]
  split
  · rfl
  · rename_i hslots
    rw [if_pos (h.resolve_left hslots), run_ret]

def HasFree (g : Config) (s : Ring) : Prop := ∃ i < g.slots, (s.job i).id = 0

instance : Decidable (HasFree g s) := inferInstanceAs (Decidable (∃ _, _ ∧ _))

/-- A push into a ring that is not full. -/
theorem push_run {payload : Bytes} (h : ¬ Refused g payload) (hfree : HasFree g s) (queue : Bytes)
    (delay : Nat) : ∃ i < g.slots, (s.job i).id = 0 ∧ (push g queue payload delay).run s =
      ({ s.put i (pushed queue payload (g.hash queue) (u64Add s.nextId 1) s.nowMs
          (later s.nowMs delay)) with nextId := u64Add s.nextId 1 }, u64Add s.nextId 1) := by
  obtain ⟨hslots, hlen⟩ := not_or.1 h
  obtain ⟨j, hj, hjfree⟩ := hfree
  rw [push, if_neg hslots, if_neg hlen, run_atom, pushWith, run_read, pushScan_run]
  cases hf : (pushProbe g.slots (u64Add s.nextId 1)).find? fun i => (s.job i).id = 0 with
  | none => exact absurd (find?_eq_none.1 hf j (mem_pushProbe_of_lt _ hj)) (by simp [hjfree])
  | some i =>
    refine ⟨i, mem_pushProbe (mem_of_find?_eq_some hf) hslots, ?_, rfl⟩
    simpa using find?_some hf

theorem push_nowMs (g : Config) (queue payload : Bytes) (delay : Nat) (s : Ring) :
    ((push g queue payload delay).run s).1.nowMs = s.nowMs := by
  rw [push]
  split
  · rfl
  · split
    · rfl
    · rw [run_atom, pushWith, run_read, pushScan_run]
      cases (pushProbe g.slots (u64Add s.nextId 1)).find? fun i => (s.job i).id = 0 <;> rfl

/-! ## Pop -/

/-- The job waits in the queue of the hash. -/
def Job.waits (e : Job) (qh now : Nat) : Prop :=
  e.id ≠ 0 ∧ e.queueHash = qh ∧ e.ready now = true

/-- The order in which jobs are handed out. -/
def Job.ahead (e e' : Job) : Prop :=
  e.availableAt < e'.availableAt ∨ (e.availableAt = e'.availableAt ∧ e.id ≤ e'.id)

theorem Job.ahead_refl (e : Job) : e.ahead e := .inr ⟨rfl, le_rfl⟩

theorem Job.ahead.trans {e e' e'' : Job} (h : e.ahead e') (h' : e'.ahead e'') : e.ahead e'' := by
  simp only [Job.ahead] at h h' ⊢
  omega

/-- One slot of the first pass. -/
def pick (s : Ring) (qh now : Nat) (best : Option (Nat × Nat × Nat)) (i : Nat) :
    Option (Nat × Nat × Nat) :=
  if (s.job i).id = 0 ∨ (s.job i).queueHash ≠ qh then best
  else if (s.job i).ready now then better best i (s.job i) else best

/-- The loop of `pop` is a fold that picks a slot. -/
theorem popScan_run (qh : Nat) (queue : Bytes) (now visibility : Nat) (w : List Nat)
    (best : Option (Nat × Nat × Nat)) (s : Ring) : (popScan qh queue now visibility w best).run s =
      (popScan qh queue now visibility [] (w.foldl (pick s qh now) best)).run s := by
  induction w generalizing best with
  | nil => rfl
  | cons i w ih =>
    rw [popScan, run_read, foldl_cons]
    exact ih _

/-- What the first pass has found among the slots `done`. -/
def Found (s : Ring) (qh now : Nat) (done : List Nat) : Option (Nat × Nat × Nat) → Prop
  | none => ∀ j ∈ done, ¬ (s.job j).waits qh now
  | some (i, a, id) => i ∈ done ∧ (s.job i).waits qh now ∧ a = (s.job i).availableAt ∧
      id = (s.job i).id ∧ ∀ j ∈ done, (s.job j).waits qh now → (s.job i).ahead (s.job j)

theorem Found.skip {qh now : Nat} {done : List Nat} {best : Option (Nat × Nat × Nat)}
    (h : Found s qh now done best) {i : Nat} (hi : ¬ (s.job i).waits qh now) :
    Found s qh now (done ++ [i]) best := by
  have hmem : ∀ j ∈ done ++ [i], (s.job j).waits qh now → j ∈ done := by
    intro j hj hw
    rcases mem_append.1 hj with hj | hj
    · exact hj
    · exact absurd (mem_singleton.1 hj ▸ hw) hi
  cases best with
  | none => exact fun j hj hw => h j (hmem j hj hw) hw
  | some x =>
    obtain ⟨i', a, id⟩ := x
    obtain ⟨hmem', hw, ha, hid, hle⟩ := h
    exact ⟨mem_append_left _ hmem', hw, ha, hid, fun j hj hw' => hle j (hmem j hj hw') hw'⟩

variable {qh now : Nat}

theorem Found.better {done : List Nat} {best : Option (Nat × Nat × Nat)}
    (h : Found s qh now done best) {i : Nat} (hi : (s.job i).waits qh now) :
    Found s qh now (done ++ [i]) (better best i (s.job i)) := by
  have hself : i ∈ done ++ [i] := mem_append_right _ (mem_singleton.2 rfl)
  have hwins : (∀ j ∈ done, (s.job j).waits qh now → (s.job i).ahead (s.job j)) →
      Found s qh now (done ++ [i]) (some (i, (s.job i).availableAt, (s.job i).id)) := by
    intro hall
    refine ⟨hself, hi, rfl, rfl, fun j hj hw => ?_⟩
    rcases mem_append.1 hj with hj | hj
    · exact hall j hj hw
    · rw [mem_singleton.1 hj]
      exact Job.ahead_refl _
  cases best with
  | none => exact hwins fun j hj hw => absurd hw (h j hj)
  | some x =>
    obtain ⟨i', a, id⟩ := x
    obtain ⟨hmem, hw, rfl, rfl, hle⟩ := h
    rw [Queue.better]
    split
    · rename_i hlt
      have hahead : (s.job i).ahead (s.job i') := by
        simp only [Job.ahead]
        omega
      exact hwins fun j hj hwj => hahead.trans (hle j hj hwj)
    · rename_i hge
      refine ⟨mem_append_left _ hmem, hw, rfl, rfl, fun j hj hwj => ?_⟩
      rcases mem_append.1 hj with hj | hj
      · exact hle j hj hwj
      · rw [mem_singleton.1 hj]
        simp only [Job.ahead]
        omega

theorem Found.pick {done : List Nat} {best : Option (Nat × Nat × Nat)}
    (h : Found s qh now done best) (i : Nat) :
    Found s qh now (done ++ [i]) (pick s qh now best i) := by
  rw [Queue.pick]
  split
  · rename_i hno
    exact h.skip fun hw => hno.elim hw.1 fun hne => hne hw.2.1
  · rename_i hjob
    obtain ⟨hid, hqh⟩ := not_or.1 hjob
    split
    · rename_i hready
      exact h.better ⟨hid, not_not.1 hqh, hready⟩
    · rename_i hready
      exact h.skip fun hw => hready hw.2.2

theorem found_foldl {done w : List Nat} {best : Option (Nat × Nat × Nat)}
    (h : Found s qh now done best) : Found s qh now (done ++ w) (w.foldl (pick s qh now) best) := by
  induction w generalizing done best with
  | nil => rwa [append_nil]
  | cons i w ih =>
    rw [foldl_cons, append_cons]
    exact ih (h.pick i)

/-- A pop: no job waits in the queue, or the first one that does is reserved. -/
theorem pop_run (g : Config) (queue : Bytes) (visibility : Nat) (s : Ring) :
    (∃ lane, (pop g queue visibility).run s = ({ s with lane }, none) ∧
      ∀ i < g.slots, ¬ (s.job i).waits (g.hash queue) s.nowMs) ∨
    ∃ lane, ∃ i < g.slots, (s.job i).waits (g.hash queue) s.nowMs ∧
      (∀ j < g.slots, (s.job j).waits (g.hash queue) s.nowMs → (s.job i).ahead (s.job j)) ∧
      (pop g queue visibility).run s =
        ({ s.put i ((s.job i).reserve (u64Add s.nextLease 1) s.nowMs visibility) with
            nextLease := u64Add s.nextLease 1, lane },
          some ⟨u64Add s.nextLease 1, ((s.job i).attempts + 1) % 4294967296,
            (s.job i).payload.take PAYLOAD_MAX⟩) := by
  rw [pop]
  split
  · rename_i hslots
    exact .inl ⟨s.lane, rfl, fun i hi => absurd hi (by simp [hslots])⟩
  obtain ⟨lane, hlane⟩ := markLane_eq s (g.hash queue) queue fun l =>
    { l with lastPolledMs := s.nowMs }
  have hstart : Found { s with lane } (g.hash queue) s.nowMs [] none :=
    fun j hj => absurd hj (by simp)
  have hfound := found_foldl (w := range g.slots) hstart
  rw [run_read, popAt, run_atom, markPolled, hlane, popScan_run]
  cases hb : (range g.slots).foldl (pick { s with lane } (g.hash queue) s.nowMs) none with
  | none =>
    rw [hb] at hfound
    exact .inl ⟨lane, rfl, fun i hi => hfound i (mem_range.2 hi)⟩
  | some x =>
    obtain ⟨i, a, id⟩ := x
    rw [hb] at hfound
    obtain ⟨hmem, hw, -, rfl, hle⟩ := hfound
    refine .inr ?_
    rw [popScan, popTake, run_atom, if_neg (by simp), if_neg (by simpa using hw.2.2)]
    obtain ⟨lane', hlane'⟩ := markLane_eq
      { Ring.put { s with lane } i
          ((s.job i).reserve (u64Add s.nextLease 1) s.nowMs visibility) with
        nextLease := u64Add s.nextLease 1 } (g.hash queue) queue fun l =>
      { l with lastDrainedMs := s.nowMs }
    refine ⟨lane', i, mem_range.1 hmem, hw, fun j hj => hle j (mem_range.2 hj), ?_⟩
    simp only [markDrained, run_ret]
    exact Prod.ext hlane' rfl

theorem pop_nowMs (g : Config) (queue : Bytes) (visibility : Nat) (s : Ring) :
    ((pop g queue visibility).run s).1.nowMs = s.nowMs := by
  rcases pop_run g queue visibility s with ⟨lane, hrun, -⟩ | ⟨lane, i, -, -, -, hrun⟩
  · rw [hrun]
  · rw [hrun]
    rfl

/-! ## Delete and release -/

/-- The loop over leases stops at the first slot that has the lease. -/
theorem leaseScan_run (app : Option Ns.App) (lease : Nat) (act : Job → Job) (w : List Nat)
    (s : Ring) : (leaseScan app lease act w).run s =
      (w.find? fun i => (s.job i).id ≠ 0 ∧ (s.job i).lease = lease).elim (s, false) fun i =>
        if Ns.owns app ((s.job i).name.take QUEUE_NAME_MAX) then (s.put i (act (s.job i)), true)
        else (s, false) := by
  induction w with
  | nil => rfl
  | cons i w ih =>
    rw [leaseScan, run_atom]
    by_cases hhas : (s.job i).id ≠ 0 ∧ (s.job i).lease = lease
    · rw [if_pos hhas, find?_cons_of_pos (by simpa using hhas), Option.elim_some]
      split <;> rfl
    · rw [if_neg hhas, find?_cons_of_neg (by simpa using hhas)]
      exact ih

/-! ## A tidy ring -/

/-- The job carries the name and the hash of a queue of an application, one of `names`. -/
def Named (g : Config) (names : Set Bytes) (e : Job) : Prop :=
  ∃ app queue, Ns.key (some app) queue ∈ names ∧
    e.name = (Ns.key (some app) queue).take QUEUE_NAME_MAX ∧
    e.queueHash = g.hash (Ns.key (some app) queue)

structure Tidy (g : Config) (names : Set Bytes) (s : Ring) : Prop where
  bound : ∀ i < g.slots, (s.job i).id ≠ 0 →
    (s.job i).id ≤ s.nextId ∧ (s.job i).lease ≤ s.nextLease
  named : ∀ i < g.slots, (s.job i).id ≠ 0 → Named g names (s.job i)
  id_inj : ∀ i < g.slots, ∀ j < g.slots, (s.job i).id ≠ 0 → (s.job i).id = (s.job j).id → i = j
  lease_inj : ∀ i < g.slots, ∀ j < g.slots, (s.job i).id ≠ 0 → (s.job j).id ≠ 0 →
    (s.job i).lease ≠ 0 → (s.job i).lease = (s.job j).lease → i = j

section
variable {names : Set Bytes} {s' : Ring} {i : Nat} {e : Job}

theorem tidy_init (g : Config) (names : Set Bytes) (nowMs : Nat) : Tidy g names (.init nowMs) :=
  ⟨fun _ _ h => absurd rfl h, fun _ _ h => absurd rfl h, fun _ _ _ _ h => absurd rfl h,
    fun _ _ _ _ h => absurd rfl h⟩

theorem Tidy.congr (h : Tidy g names s) (hjob : s'.job = s.job) (hid : s'.nextId = s.nextId)
    (hlease : s'.nextLease = s.nextLease) : Tidy g names s' := by
  refine ⟨fun i hi hne => ?_, ?_, ?_, ?_⟩
  · rw [hjob] at hne ⊢
    rw [hid, hlease]
    exact h.bound i hi hne
  · rw [hjob]
    exact h.named
  · rw [hjob]
    exact h.id_inj
  · rw [hjob]
    exact h.lease_inj

/-- A slot is written with a job that is told apart from the others by its id and its lease. -/
theorem Tidy.put (h : Tidy g names s) (hjob : s'.job = (s.put i e).job)
    (hid : s.nextId ≤ s'.nextId) (hlease : s.nextLease ≤ s'.nextLease)
    (he : e.id ≠ 0 → e.id ≤ s'.nextId ∧ e.lease ≤ s'.nextLease ∧ Named g names e ∧
      ∀ j < g.slots, j ≠ i → (s.job j).id ≠ 0 →
        (s.job j).id ≠ e.id ∧ (e.lease ≠ 0 → (s.job j).lease ≠ e.lease)) : Tidy g names s' := by
  obtain ⟨hself, hother⟩ := Ring.of_put hjob
  refine ⟨fun j hj hne => ?_, fun j hj hne => ?_, fun j hj k hk hne heq => ?_,
    fun j hj k hk hne hne' hl heq => ?_⟩
  · by_cases hji : j = i
    · rw [hji, hself] at hne ⊢
      exact ⟨(he hne).1, (he hne).2.1⟩
    · rw [hother j hji] at hne ⊢
      exact ⟨(h.bound j hj hne).1.trans hid, (h.bound j hj hne).2.trans hlease⟩
  · by_cases hji : j = i
    · rw [hji, hself] at hne ⊢
      exact (he hne).2.2.1
    · rw [hother j hji] at hne ⊢
      exact h.named j hj hne
  · by_cases hji : j = i <;> by_cases hki : k = i
    · rw [hji, hki]
    · rw [hji, hself] at hne heq
      rw [hother k hki] at heq
      exact absurd heq.symm ((he hne).2.2.2 k hk hki (heq ▸ hne)).1
    · rw [hki, hself] at heq
      rw [hother j hji] at hne heq
      exact absurd heq ((he (heq ▸ hne)).2.2.2 j hj hji hne).1
    · rw [hother j hji] at hne heq
      rw [hother k hki] at heq
      exact h.id_inj j hj k hk hne heq
  · by_cases hji : j = i <;> by_cases hki : k = i
    · rw [hji, hki]
    · rw [hji, hself] at hne hl heq
      rw [hother k hki] at hne' heq
      exact absurd heq.symm (((he hne).2.2.2 k hk hki hne').2 hl)
    · rw [hki, hself] at hne' heq
      rw [hother j hji] at hne hl heq
      exact absurd heq (((he hne').2.2.2 j hj hji hne).2 (heq ▸ hl))
    · rw [hother j hji] at hne hl heq
      rw [hother k hki] at hne' heq
      exact h.lease_inj j hj k hk hne hne' hl heq

theorem Tidy.fill (h : Tidy g names s) (hjob : s'.job = (s.put i e).job)
    (hid : s'.nextId = s.nextId + 1) (hlease : s'.nextLease = s.nextLease)
    (heid : e.id = s.nextId + 1) (helease : e.lease = 0) (hnamed : Named g names e) :
    Tidy g names s' := by
  refine h.put hjob (by omega) (by omega) fun _ =>
    ⟨by omega, by omega, hnamed, fun j hj _ hne => ?_⟩
  have hle := (h.bound j hj hne).1
  exact ⟨by omega, fun hne' => absurd helease hne'⟩

theorem Tidy.lease (h : Tidy g names s) (hi : i < g.slots) (hne : (s.job i).id ≠ 0)
    (hjob : s'.job = (s.put i e).job) (hid : s'.nextId = s.nextId) (heid : e.id = (s.job i).id)
    (hname : e.name = (s.job i).name) (hqh : e.queueHash = (s.job i).queueHash)
    (hlease : (e.lease = 0 ∧ s.nextLease = s'.nextLease) ∨
      (e.lease = s.nextLease + 1 ∧ s'.nextLease = s.nextLease + 1)) : Tidy g names s' := by
  refine h.put hjob (by omega) (by omega) fun _ => ⟨?_, by omega, ?_, fun j hj hji hjne => ?_⟩
  · rw [heid, hid]
    exact (h.bound i hi hne).1
  · obtain ⟨app, queue, hmem, hn, hq⟩ := h.named i hi hne
    exact ⟨app, queue, hmem, hname.trans hn, hqh.trans hq⟩
  · have hle := (h.bound j hj hjne).2
    refine ⟨fun heq => hji (h.id_inj j hj i hi hjne (heq.trans heid)), fun hl => ?_⟩
    omega

theorem Tidy.free (h : Tidy g names s) (he : e.id = 0) : Tidy g names (s.put i e) :=
  h.put rfl le_rfl le_rfl fun hne => absurd he hne

theorem Tidy.push (h : Tidy g names s) {app : Ns.App} {queue payload : Bytes}
    (hname : Ns.key (some app) queue ∈ names) (hfree : HasFree g s ∨ Refused g payload)
    (hs : s.Unspent) (delay : Nat) :
    Tidy g names ((push g (Ns.key (some app) queue) payload delay).run s).1 := by
  by_cases href : Refused g payload
  · rwa [push_refused href]
  · obtain ⟨i, -, -, hrun⟩ := push_run href (hfree.resolve_right href) (Ns.key (some app) queue)
      delay
    rw [hrun]
    exact h.fill rfl hs.id rfl hs.id rfl ⟨app, queue, hname, rfl, rfl⟩

/-- A pop of any queue keeps the ring tidy. -/
theorem Tidy.pop (h : Tidy g names s) (hs : s.Unspent) (queue : Bytes) (visibility : Nat) :
    Tidy g names ((pop g queue visibility).run s).1 := by
  rcases pop_run g queue visibility s with ⟨lane, hrun, -⟩ | ⟨lane, i, hi, hw, -, hrun⟩
  · rw [hrun]
    exact h.congr rfl rfl rfl
  · rw [hrun]
    exact h.lease hi hw.1 rfl rfl rfl rfl rfl (.inr ⟨hs.lease, hs.lease⟩)

/-! ## A call that presents a lease -/

/-- What a delete or release does to the ring: the slot that has the lease is changed if its job
belongs to the application. -/
def Presents (g : Config) (app : Option Ns.App) (lease : Nat) (act : Job → Job) (s : Ring)
    (out : Ring × Bool) : Prop :=
  (out = (s, false) ∧ ∀ i < g.slots, (s.job i).id ≠ 0 → lease ≠ 0 → (s.job i).lease = lease →
    Ns.owns app ((s.job i).name.take QUEUE_NAME_MAX) = false) ∨
  ∃ i < g.slots, (s.job i).id ≠ 0 ∧ lease ≠ 0 ∧ (s.job i).lease = lease ∧
    Ns.owns app ((s.job i).name.take QUEUE_NAME_MAX) = true ∧ out = (s.put i (act (s.job i)), true)

def LeasesApart (g : Config) (s : Ring) : Prop :=
  ∀ i < g.slots, ∀ j < g.slots, (s.job i).id ≠ 0 → (s.job j).id ≠ 0 → (s.job i).lease ≠ 0 →
    (s.job i).lease = (s.job j).lease → i = j

theorem LeasesApart.leaseScan (h : LeasesApart g s) {lease : Nat} (hl : lease ≠ 0)
    (app : Option Ns.App) (act : Job → Job) :
    Presents g app lease act s ((leaseScan app lease act (List.range g.slots)).run s) := by
  rw [leaseScan_run]
  cases hf : (range g.slots).find? fun i => (s.job i).id ≠ 0 ∧ (s.job i).lease = lease with
  | none =>
    refine .inl ⟨rfl, fun i hi hne _ heq => ?_⟩
    exact absurd (find?_eq_none.1 hf i (mem_range.2 hi)) (by simp [hne, heq])
  | some i =>
    have hi := mem_range.1 (mem_of_find?_eq_some hf)
    obtain ⟨hne, heq⟩ : (s.job i).id ≠ 0 ∧ (s.job i).lease = lease := by
      simpa using find?_some hf
    rw [Option.elim_some]
    split
    · rename_i howns
      exact .inr ⟨i, hi, hne, hl, heq, howns, rfl⟩
    · rename_i howns
      refine .inl ⟨rfl, fun j hj hjne _ hjeq => ?_⟩
      rw [← h i hi j hj hne hjne (heq ▸ hl) (heq.trans hjeq.symm)]
      exact Bool.eq_false_iff.2 howns

theorem Presents.nowMs {app : Option Ns.App} {lease : Nat} {act : Job → Job} {out : Ring × Bool}
    (h : Presents g app lease act s out) : out.1.nowMs = s.nowMs := by
  rcases h with ⟨rfl, -⟩ | ⟨i, -, -, -, -, -, rfl⟩ <;> rfl

theorem presents_none (g : Config) (app : Option Ns.App) {lease : Nat} (act : Job → Job) (s : Ring)
    (h : g.slots = 0 ∨ lease = 0) : Presents g app lease act s (s, false) :=
  .inl ⟨rfl, fun i hi _ hl _ => h.elim (fun h0 => absurd hi (by simp [h0])) fun h0 => absurd h0 hl⟩

theorem LeasesApart.delete_run (h : LeasesApart g s) (app : Option Ns.App) (lease : Nat) :
    Presents g app lease Job.free s ((delete g app lease).run s) := by
  rw [delete]
  split
  · rename_i hslots
    exact presents_none g app _ s (.inl hslots)
  · split
    · rename_i hl
      exact presents_none g app _ s (.inr hl)
    · rename_i hl
      exact h.leaseScan hl app _

theorem LeasesApart.release_run (h : LeasesApart g s) (app : Option Ns.App) (lease delay : Nat) :
    Presents g app lease (Job.giveBack · (later s.nowMs delay)) s
      ((release g app lease delay).run s) := by
  rw [release]
  split
  · rename_i hslots
    exact presents_none g app _ s (.inl hslots)
  · split
    · rename_i hl
      exact presents_none g app _ s (.inr hl)
    · rename_i hl
      exact h.leaseScan hl app _

theorem Tidy.delete_run (h : Tidy g names s) (app : Option Ns.App) (lease : Nat) :
    Presents g app lease Job.free s ((Queue.delete g app lease).run s) :=
  LeasesApart.delete_run h.lease_inj app lease

theorem Tidy.release_run (h : Tidy g names s) (app : Option Ns.App) (lease delay : Nat) :
    Presents g app lease (Job.giveBack · (later s.nowMs delay)) s
      ((Queue.release g app lease delay).run s) :=
  LeasesApart.release_run h.lease_inj app lease delay

theorem Tidy.delete (h : Tidy g names s) (app : Option Ns.App) (lease : Nat) :
    Tidy g names ((delete g app lease).run s).1 := by
  rcases h.delete_run app lease with ⟨hout, -⟩ | ⟨i, -, -, -, -, -, hout⟩
  · rwa [hout]
  · rw [hout]
    exact h.free rfl

theorem Tidy.release (h : Tidy g names s) (app : Option Ns.App) (lease delay : Nat) :
    Tidy g names ((release g app lease delay).run s).1 := by
  rcases h.release_run app lease delay with ⟨hout, -⟩ | ⟨i, hi, hne, -, -, -, hout⟩
  · rwa [hout]
  · rw [hout]
    exact h.lease hi hne rfl rfl rfl rfl rfl (.inl ⟨rfl, rfl⟩)

end

end Askr.Queue
