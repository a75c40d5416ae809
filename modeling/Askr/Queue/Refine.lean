import Askr.Queue.Act

/-!
# The ring is a queue of leased jobs

A schedule of calls is watched from outside (`watch`): a call that returns is noted with the job it
is about, a push with what it carries, a pop with the deadline of its reservation and the clock. A
call whose job is in no slot is not noted, and no successful call is one (`Recorded`). The notes are
labels of the abstract queue (`Lease`), and every event of the schedule is one of its steps or
leaves it alone: `sim_run`. The relation between the two (`Sim`) is that the occupied slots are the
jobs (`Slots`), that the counters agree (`Rep`), and that the ids that pushes in flight have drawn
are new and distinct (`Tickets`). The counters of the abstract queue have no end, so the schedules
are those in which neither counter of the ring is at its last number (`Ring.Unspent`).
-/

namespace Askr.Queue

open Conc Function List Pool Nat

/-! ## Watching a schedule -/

/-- What a job carries: its payload and the hash of its queue. -/
abbrev Data := Bytes × Nat

/-- The job that is out under a lease, if there is one. -/
def Ring.held (g : Config) (s : Ring) (lease : Nat) : Option Job :=
  ((List.range g.slots).map s.job).find? fun e => e.id ≠ 0 && e.lease = lease

/-- What is noted when a call returns in the step from `s` to `s'`. A pop is noted with the job that
is out under its lease from now on, and a delete or release with the one that was until now; nothing
is noted if there is no such job. -/
def noted (g : Config) (s s' : Ring) (r : Ret Call Res) : Option (Lease.Label Data) :=
  match r.call.req, r.res with
  | .push queue payload _, .id n =>
    if n = 0 then none else some (.put n (payload, g.hash (Ns.key r.call.app queue)))
  | .pop _ _, .job (some job) =>
    (s'.held g job.id).map fun e => .take job.id e.id e.reservedUntil s'.nowMs
  | .delete lease, .flag true => (s.held g lease).map fun e => .drop lease e.id
  | .release lease _, .flag true => (s.held g lease).map fun e => .back lease e.id
  | _, _ => none

/-- The call that returned in the event from `P` to `P'`. -/
def returned (P P' : Pool Ring Call Res) : Option (Ret Call Res) :=
  if P'.done.length = P.done.length then none else P'.done.head?

/-- The callers and the ring, and what was noted so far, oldest first. -/
structure History where
  pool : Pool Ring Call Res
  labels : List (Lease.Label Data)

def watch (g : Config) (H : History) (e : Event Call Nat) : History :=
  let P := H.pool.exec (code g) tick e
  { pool := P
    labels := H.labels ++
      ((returned H.pool P).bind (noted g H.pool.shared P.shared)).toList }

/-- A schedule from the mapped ring, watched. -/
def history (g : Config) (nowMs : Nat) (es : List (Event Call Nat)) : History :=
  Run.runs (watch g) ⟨.start (.init nowMs), []⟩ es

theorem noted_quiet {g : Config} {s s' : Ring} {t : Nat} {c : Call} {r : Res}
    (h : r.isQuiet = true) : noted g s s' ⟨t, c, r⟩ = none := by
  obtain ⟨app, req⟩ := c
  cases req <;> cases r <;> simp_all [noted, Res.isQuiet]

/-- What is noted when a caller settles. -/
def notes (g : Config) (s s' : Ring) (t : Nat) (c : Call) : Prog Ring Res → List (Lease.Label Data)
  | .ret r => (noted g s s' ⟨t, c, r⟩).toList
  | .act _ _ => []

theorem watch_settle {g : Config} {H : History} {e : Event Call Nat} {t : Nat} {c : Call}
    {s' : Ring} {p : Prog Ring Res} (he : H.pool.exec (code g) tick e = H.pool.settle t c s' p) :
    watch g H e = ⟨H.pool.settle t c s' p, H.labels ++ notes g H.pool.shared s' t c p⟩ := by
  rw [watch, he]
  cases p <;> simp [returned, settle, notes]

theorem watch_still {g : Config} {H : History} {e : Event Call Nat} {P : Pool Ring Call Res}
    (he : H.pool.exec (code g) tick e = P) (hdone : P.done = H.pool.done) :
    watch g H e = ⟨P, H.labels⟩ := by
  rw [watch, he]
  simp [returned, hdone]

/-! ## What returned and what was noted -/

/-- The lease a pop returned. -/
def gave (r : Ret Call Res) : Option Nat :=
  match r.call.req, r.res with
  | .pop _ _, .job (some job) => some job.id
  | _, _ => none

/-- The lease that a delete or release returned true for. -/
def ended (r : Ret Call Res) : Option Nat :=
  match r.call.req, r.res with
  | .delete lease, .flag true => some lease
  | .release lease _, .flag true => some lease
  | _, _ => none

/-- The id that a push returned, and what it was called with. -/
def made (g : Config) (r : Ret Call Res) : Option (Nat × Data) :=
  match r.call.req, r.res with
  | .push queue payload _, .id n =>
    if n = 0 then none else some (n, payload, g.hash (Ns.key r.call.app queue))
  | _, _ => none

/-- What a label says of a push. -/
def puts : Lease.Label Data → Option (Nat × Data)
  | .put n a => some (n, a)
  | _ => none

/-- **Nothing is left out.** The leases noted are those that pops returned and those that deletes
and releases returned true for, and the jobs noted are those that pushes returned an id for, all in
the order of the returns. -/
structure Recorded (g : Config) (H : History) : Prop where
  gives : H.labels.filterMap Lease.Label.gives = (H.pool.done.filterMap gave).reverse
  ends : H.labels.filterMap Lease.Label.ends = (H.pool.done.filterMap ended).reverse
  puts : H.labels.filterMap puts = (H.pool.done.filterMap (made g)).reverse

section
variable {g : Config} {s s' : Ring} {r : Ret Call Res}

/-- A noted pop shows its lease. -/
theorem noted_gives (h : noted g s s' r = none → r.res.isQuiet = true) :
    (noted g s s' r).bind Lease.Label.gives = gave r := by
  obtain ⟨t, ⟨app, req⟩, res⟩ := r
  cases req <;> rcases res with n | (_ | job) | (_ | _) <;> try rfl
  · simp only [noted, gave]
    split <;> rfl
  · simp only [noted] at h ⊢
    cases hheld : s'.held g job.id with
    | none => simp [hheld, Res.isQuiet] at h
    | some e => rfl
  all_goals
    simp only [noted]
    cases s.held g _ <;> rfl

/-- A noted delete or release shows its lease. -/
theorem noted_ends (h : noted g s s' r = none → r.res.isQuiet = true) :
    (noted g s s' r).bind Lease.Label.ends = ended r := by
  obtain ⟨t, ⟨app, req⟩, res⟩ := r
  cases req <;> rcases res with n | (_ | job) | (_ | _) <;> try rfl
  · simp only [noted, ended]
    split <;> rfl
  · simp only [noted]
    cases s'.held g job.id <;> rfl
  all_goals
    rename_i lease
    simp only [noted] at h ⊢
    cases hheld : s.held g _ with
    | none => simp [hheld, Res.isQuiet] at h
    | some e => rfl

/-- A noted push shows its job. -/
theorem noted_puts : (noted g s s' r).bind puts = made g r := by
  obtain ⟨t, ⟨app, req⟩, res⟩ := r
  cases req <;> rcases res with n | (_ | job) | (_ | _) <;> try rfl
  · simp only [noted, made]
    split <;> rfl
  · simp only [noted]
    cases s'.held g job.id <;> rfl
  all_goals
    simp only [noted]
    cases s.held g _ <;> rfl

variable {H : History} {t : Nat} {c : Call} {p : Prog Ring Res}

theorem notes_settle {β : Type} {f : Lease.Label Data → Option β} {h : Ret Call Res → Option β}
    (hH : H.labels.filterMap f = (H.pool.done.filterMap h).reverse)
    (hf : ∀ r, p = .ret r → (noted g H.pool.shared s' ⟨t, c, r⟩).bind f = h ⟨t, c, r⟩) :
    (H.labels ++ notes g H.pool.shared s' t c p).filterMap f =
      ((H.pool.settle t c s' p).done.filterMap h).reverse := by
  cases p with
  | act u n => simpa [notes, settle] using hH
  | ret r =>
    rw [filterMap_append, hH, notes, settle]
    have hr := hf r rfl
    cases hn : noted g H.pool.shared s' ⟨t, c, r⟩ with
    | none =>
      rw [hn, Option.bind_none] at hr
      simp [← hr]
    | some x =>
      rw [hn, Option.bind_some] at hr
      cases hx : h ⟨t, c, r⟩ <;> simp [hr, hx]

/-- A caller settles, and its call is noted unless it did nothing. -/
theorem Recorded.settle (h : Recorded g H)
    (hn : ∀ r, p = .ret r → noted g H.pool.shared s' ⟨t, c, r⟩ = none → r.isQuiet = true) :
    Recorded g ⟨H.pool.settle t c s' p, H.labels ++ notes g H.pool.shared s' t c p⟩ where
  gives := notes_settle h.gives fun r hr => noted_gives (hn r hr)
  ends := notes_settle h.ends fun r hr => noted_ends (hn r hr)
  puts := notes_settle h.puts fun _ _ => noted_puts

end

/-! ## Slots and jobs -/

/-- A slot as a job of the abstract queue. -/
def Job.item (e : Job) : Lease.Item Data :=
  { data := (e.payload, e.queueHash), lease := e.lease, till := e.reservedUntil }

@[simp] theorem Job.item_lease (e : Job) : e.item.lease = e.lease := rfl

/-- The occupied slots are the jobs, each in one slot. -/
structure Slots (g : Config) (job : Nat → Job) (jobs : Nat → Option (Lease.Item Data)) : Prop where
  slot : ∀ i < g.slots, (job i).id ≠ 0 → jobs (job i).id = some (job i).item
  found : ∀ j it, jobs j = some it → j ≠ 0 ∧ ∃ i < g.slots, (job i).id = j
  unique : ∀ i < g.slots, ∀ i' < g.slots, (job i).id ≠ 0 → (job i).id = (job i').id → i = i'

section
variable {g : Config} {job : Nat → Job} {jobs : Nat → Option (Lease.Item Data)} {i : Nat} {e : Job}

theorem Slots.write (h : Slots g job jobs) (hi : i < g.slots) (he : e.id ≠ 0)
    (hold : (job i).id = 0 ∨ (job i).id = e.id)
    (hno : ∀ i' < g.slots, (job i').id = e.id → i' = i) :
    Slots g (update job i e) (update jobs e.id (some e.item)) := by
  refine ⟨fun i' hi' hid => ?_, fun j it hit => ?_, fun i₁ h₁ i₂ h₂ hid heq => ?_⟩
  · by_cases hii : i' = i
    · subst hii
      simp
    · rw [update_of_ne hii] at hid ⊢
      rw [update_of_ne fun heq => hii (hno i' hi' heq)]
      exact h.slot i' hi' hid
  · by_cases hj : j = e.id
    · exact ⟨hj ▸ he, i, hi, by simp [hj]⟩
    · rw [update_of_ne hj] at hit
      obtain ⟨hj0, i', hi', rfl⟩ := h.found j it hit
      refine ⟨hj0, i', hi', ?_⟩
      have hii : i' ≠ i := by
        rintro rfl
        exact hold.elim hj0 hj
      rw [update_of_ne hii]
  · by_cases h₁i : i₁ = i <;> by_cases h₂i : i₂ = i
    · rw [h₁i, h₂i]
    · subst h₁i
      rw [update_self, update_of_ne h₂i] at heq
      exact (hno i₂ h₂ heq.symm).symm
    · subst h₂i
      rw [update_self, update_of_ne h₁i] at heq
      exact hno i₁ h₁ heq
    · rw [update_of_ne h₁i] at hid heq
      rw [update_of_ne h₂i] at heq
      exact h.unique i₁ h₁ i₂ h₂ hid heq

theorem Slots.clear (h : Slots g job jobs) (hi : i < g.slots) (hid : (job i).id ≠ 0)
    (he : e.id = 0) : Slots g (update job i e) (update jobs (job i).id none) := by
  have hne : ∀ {i'}, (update job i e i').id ≠ 0 → i' ≠ i := by
    rintro i' h rfl
    exact h (by simpa using he)
  refine ⟨fun i' hi' hid' => ?_, fun j it hit => ?_, fun i₁ h₁ i₂ h₂ hid' heq => ?_⟩
  · have hii := hne hid'
    rw [update_of_ne hii] at hid' ⊢
    rw [update_of_ne fun heq => hii (h.unique i' hi' i hi hid' heq)]
    exact h.slot i' hi' hid'
  · obtain ⟨hj, hit⟩ := Lease.update_none_eq_some.1 hit
    obtain ⟨hj0, i', hi', rfl⟩ := h.found j it hit
    refine ⟨hj0, i', hi', ?_⟩
    rw [update_of_ne (by rintro rfl; exact hj rfl)]
  · have h₁i := hne hid'
    have h₂i := hne (heq ▸ hid')
    rw [update_of_ne h₁i] at hid' heq
    rw [update_of_ne h₂i] at heq
    exact h.unique i₁ h₁ i₂ h₂ hid' heq

end

/-! ## The ring and the abstract queue -/

/-- The ring holds what the abstract queue holds. -/
structure Rep (g : Config) (s : Ring) (a : Lease.State Data) : Prop where
  slots : Slots g s.job a.jobs
  last : a.last = s.nextLease
  clock : a.clock = s.nowMs
  seen : ∀ j ∈ a.seen, j ≤ s.nextId

section
variable {g : Config} {s s' : Ring} {a : Lease.State Data} {i : Nat}

theorem rep_init (g : Config) (nowMs : Nat) : Rep g (.init nowMs) (.start nowMs) where
  slots := ⟨fun i _ h => absurd rfl h, fun j it h => (by cases h), fun i _ i' _ h => absurd rfl h⟩
  last := rfl
  clock := rfl
  seen := fun j h => absurd h (Set.notMem_empty j)

theorem Rep.quiet (h : Rep g s a) (hjob : s'.job = s.job) (hid : s.nextId ≤ s'.nextId)
    (hlease : s'.nextLease = s.nextLease) (hnow : s'.nowMs = s.nowMs) : Rep g s' a where
  slots := hjob ▸ h.slots
  last := h.last.trans hlease.symm
  clock := h.clock.trans hnow.symm
  seen := fun j hj => (h.seen j hj).trans hid

theorem Rep.held_eq (h : Rep g s a) {tr : List (Lease.Label Data)} (hk : Lease.Kept tr a)
    (hi : i < g.slots) (hid : (s.job i).id ≠ 0) (hlease : (s.job i).lease ≠ 0) :
    s.held g (s.job i).lease = some (s.job i) := by
  have hmem : s.job i ∈ (range g.slots).map s.job :=
    mem_map.2 ⟨i, mem_range.2 hi, rfl⟩
  rw [Ring.held]
  cases hf : ((range g.slots).map s.job).find?
      fun e => e.id ≠ 0 && e.lease = (s.job i).lease with
  | none =>
    have := find?_eq_none.1 hf _ hmem
    simp [hid] at this
  | some e =>
    obtain ⟨i', hi', rfl⟩ := mem_map.1 (mem_of_find?_eq_some hf)
    have hfound := find?_some hf
    simp only [Bool.and_eq_true, decide_eq_true_eq] at hfound
    have hjob := hk.unique _ _ _ _ (h.slots.slot i hi hid)
      (h.slots.slot i' (mem_range.1 hi') hfound.1) hlease hfound.2.symm
    rw [h.slots.unique i hi i' (mem_range.1 hi') hid hjob]

theorem Rep.fill (h : Rep g s a) (hi : i < g.slots) (hfree : (s.job i).id = 0) {id : Nat}
    (hid : id ≠ 0) (hle : id ≤ s.nextId) (hnew : id ∉ a.seen) {tr : List (Lease.Label Data)}
    (hk : Lease.Kept tr a) (queue payload : Bytes) (qh created available : Nat) :
    Rep g (s.put i (pushed queue payload qh id created available)) { a with
        jobs := update a.jobs id (some ⟨(payload, qh), 0, 0⟩)
        seen := insert id a.seen } where
  slots := by
    refine h.slots.write (e := pushed queue payload qh id created available) hi hid (.inl hfree)
      fun i' hi' heq => ?_
    have heq' : (s.job i').id = id := heq
    exact absurd (hk.known _ _ (h.slots.slot i' hi' (heq' ▸ hid))) (heq' ▸ hnew)
  last := h.last
  clock := h.clock
  seen := by
    rintro j (rfl | hj)
    exacts [hle, h.seen j hj]

theorem Rep.reserve (h : Rep g s a) (hi : i < g.slots) (hid : (s.job i).id ≠ 0)
    {now visibility : Nat}
    (hjob : s'.job = (s.put i ((s.job i).reserve (s.nextLease + 1) now visibility)).job)
    (hnext : s'.nextId = s.nextId) (hlease : s'.nextLease = s.nextLease + 1)
    (hnow : s'.nowMs = s.nowMs) : Rep g s' { a with
        jobs := update a.jobs (s.job i).id
          (some ⟨(s.job i).item.data, s.nextLease + 1, later now visibility⟩)
        last := s.nextLease + 1 } where
  slots := by
    rw [hjob]
    exact h.slots.write (e := (s.job i).reserve (s.nextLease + 1) now visibility) hi hid (.inr rfl)
      fun i' hi' heq => (h.slots.unique i hi i' hi' hid heq.symm).symm
  last := hlease.symm
  clock := h.clock.trans hnow.symm
  seen := fun j hj => hnext ▸ h.seen j hj

theorem Rep.held_reserve (h : Rep g s' a) {tr : List (Lease.Label Data)} (hk : Lease.Kept tr a)
    (hi : i < g.slots) (hid : (s.job i).id ≠ 0) {lease now visibility : Nat} (hlease : lease ≠ 0)
    (hjob : s'.job = (s.put i ((s.job i).reserve lease now visibility)).job) :
    s'.held g lease = some ((s.job i).reserve lease now visibility) := by
  have hslot : s'.job i = (s.job i).reserve lease now visibility := by
    rw [hjob, Ring.put_self]
  have heq := h.held_eq hk hi (by rw [hslot]; exact hid) (by rw [hslot]; exact hlease)
  rwa [hslot] at heq

theorem Rep.free (h : Rep g s a) (hi : i < g.slots) (hid : (s.job i).id ≠ 0) :
    Rep g (s.put i (s.job i).free) { a with jobs := update a.jobs (s.job i).id none } where
  slots := h.slots.clear (e := (s.job i).free) hi hid rfl
  last := h.last
  clock := h.clock
  seen := h.seen

theorem Rep.give (h : Rep g s a) (hi : i < g.slots) (hid : (s.job i).id ≠ 0) (available : Nat) :
    Rep g (s.put i ((s.job i).giveBack available)) { a with
        jobs := update a.jobs (s.job i).id (some ⟨(s.job i).item.data, 0, 0⟩) } where
  slots := h.slots.write (e := (s.job i).giveBack available) hi hid (.inr rfl)
    fun i' hi' heq => (h.slots.unique i hi i' hi' hid heq.symm).symm
  last := h.last
  clock := h.clock
  seen := h.seen

end

/-! ## Calls in flight -/

/-- Where the callers are, and the ids that pushes among them have drawn: ids that no job has had
yet, no two the same. -/
structure Tickets (g : Config) (P : Pool Ring Call Res) (seen : Set Nat) (ids : Nat → Nat) :
    Prop where
  idle : ∀ t, P.thread t = none → ids t = 0
  flight : ∀ t c p, P.thread t = some (c, p) → Stage g P.shared.nowMs c (ids t) p
  fresh : ∀ t, ids t ≠ 0 → ids t ≤ P.shared.nextId ∧ ids t ∉ seen
  apart : ∀ t t', ids t ≠ 0 → ids t = ids t' → t = t'

section
variable {g : Config} {P : Pool Ring Call Res} {seen seen' : Set Nat} {ids : Nat → Nat}

/-- A caller goes on at a stage with the id `id'`, or is through (`id' = 0`). -/
theorem Tickets.settle (h : Tickets g P seen ids) {t : Nat} {c : Call} {s' : Ring}
    {p' : Prog Ring Res} {id' : Nat} (hnow : s'.nowMs = P.shared.nowMs)
    (hnext : P.shared.nextId ≤ s'.nextId) (hstage : (id' = 0 ∧ ∃ r, p' = .ret r) ∨
      ((∀ r, p' ≠ .ret r) ∧ Stage g P.shared.nowMs c id' p'))
    (hfresh : id' ≠ 0 → id' ≤ s'.nextId ∧ id' ∉ seen' ∧ ∀ t', t' ≠ t → ids t' ≠ id')
    (hseen : ∀ t', t' ≠ t → ids t' ≠ 0 → ids t' ∉ seen') :
    Tickets g (P.settle t c s' p') seen' (update ids t id') where
  idle := by
    intro t' ht'
    by_cases htt : t' = t
    · subst htt
      rcases hstage with ⟨rfl, -⟩ | ⟨hret, -⟩
      · simp
      · cases p' with
        | ret r => exact absurd rfl (hret r)
        | act u n => simp [Pool.settle] at ht'
    · rw [settle_thread_ne htt] at ht'
      rw [update_of_ne htt]
      exact h.idle t' ht'
  flight := by
    intro t' c' p ht'
    rw [settle_shared, hnow]
    rcases settle_thread_cases ht' with ⟨rfl, rfl, rfl, hret⟩ | ⟨htt, ht'⟩
    · rw [update_self]
      rcases hstage with ⟨-, r, rfl⟩ | ⟨-, hstage⟩
      exacts [absurd rfl (hret r), hstage]
    · rw [update_of_ne htt]
      exact h.flight t' c' p ht'
  fresh := by
    intro t' hid
    rw [settle_shared]
    by_cases htt : t' = t
    · subst htt
      rw [update_self] at hid ⊢
      exact ⟨(hfresh hid).1, (hfresh hid).2.1⟩
    · rw [update_of_ne htt] at hid ⊢
      exact ⟨(h.fresh t' hid).1.trans hnext, hseen t' htt hid⟩
  apart := by
    intro t₁ t₂ hid heq
    by_cases h₁ : t₁ = t <;> by_cases h₂ : t₂ = t
    · rw [h₁, h₂]
    · subst h₁
      rw [update_self] at hid heq
      rw [update_of_ne h₂] at heq
      exact absurd heq.symm ((hfresh hid).2.2 t₂ h₂)
    · subst h₂
      rw [update_of_ne h₁] at hid heq
      rw [update_self] at heq
      exact absurd heq ((hfresh (heq ▸ hid)).2.2 t₁ h₁)
    · rw [update_of_ne h₁] at hid heq
      rw [update_of_ne h₂] at heq
      exact h.apart t₁ t₂ hid heq

theorem Tickets.over (h : Tickets g P seen ids) {t : Nat} (c : Call) {s' : Ring} (r : Res)
    (hnow : s'.nowMs = P.shared.nowMs) (hnext : P.shared.nextId ≤ s'.nextId)
    (hseen : ∀ t', t' ≠ t → ids t' ≠ 0 → ids t' ∉ seen') :
    Tickets g (P.settle t c s' (.ret r)) seen' (update ids t 0) :=
  h.settle hnow hnext (.inl ⟨rfl, r, rfl⟩) (fun h => absurd rfl h) hseen

theorem Tickets.goOn (h : Tickets g P seen ids) {t : Nat} {c : Call} {s' : Ring}
    {p' : Prog Ring Res} {id' : Nat} (hnow : s'.nowMs = P.shared.nowMs)
    (hnext : P.shared.nextId ≤ s'.nextId) (hstage : GoesOn g P.shared.nowMs c id' p')
    (hfresh : id' ≠ 0 → id' ≤ s'.nextId ∧ id' ∉ seen ∧ ∀ t', t' ≠ t → ids t' ≠ id') :
    ∃ ids', Tickets g (P.settle t c s' p') seen ids' := by
  have hseen : ∀ t', t' ≠ t → ids t' ≠ 0 → ids t' ∉ seen := fun t' _ hid => (h.fresh t' hid).2
  cases p' with
  | ret r => exact ⟨_, h.over c r hnow hnext hseen⟩
  | act u n =>
    refine ⟨_, h.settle hnow hnext (.inr ⟨by simp, ?_⟩) hfresh hseen⟩
    exact hstage.resolve_right fun ⟨r, hr, _⟩ => by cases hr

end

/-! ## The simulation -/

def Sim (g : Config) (H : History) : Prop :=
  Recorded g H ∧
    ∃ a ids, Lease.Traced H.labels a ∧ Rep g H.pool.shared a ∧ Tickets g H.pool a.seen ids

section
variable {g : Config} {H : History} {a : Lease.State Data} {ids : Nat → Nat} {t : Nat} {c : Call}
  {s' : Ring} {p' : Prog Ring Res}

theorem notes_quiet {s : Ring} {nowMs id : Nat} (h : GoesOn g nowMs c id p') :
    notes g s s' t c p' = [] := by
  cases p' with
  | ret r => rw [notes, noted_quiet h.isQuiet]; rfl
  | act u n => rfl

theorem Sim.of_settle {ids' : Nat → Nat} (hrec : Recorded g H)
    (hn : ∀ r, p' = .ret r → noted g H.pool.shared s' ⟨t, c, r⟩ = none → r.isQuiet = true)
    (htr : Lease.Traced (H.labels ++ notes g H.pool.shared s' t c p') a) (hrep : Rep g s' a)
    (htick : Tickets g (H.pool.settle t c s' p') a.seen ids') :
    Sim g ⟨H.pool.settle t c s' p', H.labels ++ notes g H.pool.shared s' t c p'⟩ :=
  ⟨hrec.settle hn, a, ids', htr, by simpa using hrep, htick⟩

/-- **One action of a call** is a step of the abstract queue, or none. -/
theorem sim_act (hrec : Recorded g H) (htr : Lease.Traced H.labels a) (hrep : Rep g H.pool.shared a)
    (htick : Tickets g H.pool a.seen ids) (hact : Act g c (ids t) H.pool.shared s' p') :
    Sim g ⟨H.pool.settle t c s' p', H.labels ++ notes g H.pool.shared s' t c p'⟩ := by
  have hk := htr.kept.2
  have hseen : ∀ t', t' ≠ t → ids t' ≠ 0 → ids t' ∉ a.seen :=
    fun t' _ hid => (htick.fresh t' hid).2
  cases hact with
  | quiet hjob hnext hlease hnow hgo =>
    obtain ⟨ids', htick'⟩ := htick.goOn hnow hnext.ge hgo fun hid =>
      ⟨hnext ▸ (htick.fresh t hid).1, (htick.fresh t hid).2,
        fun t' htt heq => htt (htick.apart t t' hid heq.symm).symm⟩
    refine .of_settle hrec (fun r hr _ => ?_) (by rwa [notes_quiet hgo, append_nil])
      (hrep.quiet hjob hnext.ge hlease hnow) htick'
    exact (hr ▸ hgo).isQuiet
  | draws hid hs hstage =>
    subst hs
    have hnow : Ring.nowMs { H.pool.shared with nextId := H.pool.shared.nextId + 1 } =
      H.pool.shared.nowMs := rfl
    obtain ⟨ids', htick'⟩ := htick.goOn hnow (le_succ _) (.inl hstage) fun _ =>
      ⟨le_rfl, fun hmem => absurd (hrep.seen _ hmem) (not_succ_le_self _), fun t' _ heq =>
        absurd (htick.fresh t' (heq ▸ succ_ne_zero _)).1 (heq ▸ not_succ_le_self _)⟩
    refine .of_settle hrec (fun r hr _ => (hr ▸ hstage).isQuiet) ?_
      (hrep.quiet rfl ?_ rfl rfl) htick'
    · rwa [notes_quiet (.inl hstage), append_nil]
    · exact le_succ _
  | fills i created available queue payload delay hreq hid hi hfree hs hp =>
    subst hs hp
    obtain ⟨hle, hnew⟩ := htick.fresh t hid
    have hstep := Lease.Step.put a (payload, g.hash (Ns.key c.app queue)) hnew
    refine .of_settle hrec (fun r hr hn => ?_) ?_
      (hrep.fill hi hfree hid hle hnew hk _ payload _ created available)
      (htick.over c _ rfl le_rfl fun t' htt hid' => ?_)
    · cases hr
      simp [noted, hreq, hid] at hn
    · simpa [notes, noted, hreq, hid] using htr.step hstep
    · rintro (heq | hmem)
      · exact htt (htick.apart t' t hid' heq)
      · exact hseen t' htt hid' hmem
  | reserves i now queue visibility hreq hi hid hnow hready hjob hnext hlease hnow' hp =>
    obtain ⟨attempts, payload, rfl⟩ := hp
    have htill : (H.pool.shared.job i).reservedUntil ≤ a.clock := by
      simp only [Job.ready, Bool.and_eq_true, Bool.or_eq_true, decide_eq_true_eq] at hready
      rw [hrep.clock]
      omega
    have hlast : a.last < H.pool.shared.nextLease + 1 := by rw [hrep.last]; exact lt_succ_self _
    have hstep := Lease.Step.take a (later now visibility) (hrep.slots.slot i hi hid) htill hlast
    have hrep' := hrep.reserve hi hid hjob hnext hlease hnow'
    have hheld := hrep'.held_reserve (htr.step hstep).kept.2 hi hid (succ_ne_zero _) hjob
    refine .of_settle hrec (fun r hr hn => ?_) ?_ hrep' (htick.over c _ hnow' hnext.ge hseen)
    · cases hr
      simp [noted, hreq, hheld] at hn
    · simpa [notes, noted, hreq, hheld, Job.reserve, hnow', hrep.clock] using htr.step hstep
  | frees i lease hreq hi hid hl hlease hs hp =>
    subst hs hp hlease
    have hstep := Lease.Step.drop a (hrep.slots.slot i hi hid) hl
    refine .of_settle hrec (fun r hr hn => ?_) ?_ (hrep.free hi hid)
      (htick.over c _ rfl le_rfl hseen)
    · cases hr
      simp [noted, hreq, hrep.held_eq hk hi hid hl] at hn
    · simpa [notes, noted, hreq, hrep.held_eq hk hi hid hl] using htr.step hstep
  | gives i lease delay available hreq hi hid hl hlease hs hp =>
    subst hs hp hlease
    have hstep := Lease.Step.back a (hrep.slots.slot i hi hid) hl
    refine .of_settle hrec (fun r hr hn => ?_) ?_ (hrep.give hi hid available)
      (htick.over c _ rfl le_rfl hseen)
    · cases hr
      simp [noted, hreq, hrep.held_eq hk hi hid hl] at hn
    · simpa [notes, noted, hreq, hrep.held_eq hk hi hid hl] using htr.step hstep

/-- **One event** of a schedule is a step of the abstract queue, or none. -/
theorem sim_step (h : Sim g H) (hs : H.pool.shared.Unspent) (e : Event Call Nat) :
    Sim g (watch g H e) := by
  obtain ⟨hrec, a, ids, htr, hrep, htick⟩ := h
  rcases exec_cases (code g) tick H.pool e with he | ⟨t, c, hec, he⟩ | ⟨t, c, p, -, ht, he⟩ |
    ⟨d, -, he⟩
  · rw [watch_still he rfl]
    exact ⟨hrec, a, ids, htr, hrep, htick⟩
  · cases ht : H.pool.thread t with
    | some x =>
      rw [watch_still (P := H.pool) (by simp [hec, exec, ht]) rfl]
      exact ⟨hrec, a, ids, htr, hrep, htick⟩
    | none =>
      rw [watch_settle he]
      refine sim_act hrec htr hrep htick (quiet_same (.inl ?_))
      rw [htick.idle t ht]
      exact stage_code g _ c
  · rw [watch_settle he]
    exact sim_act hrec htr hrep htick ((htick.flight t c p ht).next hs)
  · rw [watch_still he rfl]
    refine ⟨⟨hrec.gives, hrec.ends, hrec.puts⟩, _, ids,
      htr.tick (a.clock + d) (Nat.le_add_right _ _), ?_, ?_⟩
    · exact ⟨hrep.slots, hrep.last, by rw [hrep.clock]; rfl, hrep.seen⟩
    · exact ⟨htick.idle, fun t c p ht => (htick.flight t c p ht).mono (Nat.le_add_right _ _),
        htick.fresh, htick.apart⟩

/-- A watched schedule is the schedule. -/
theorem history_pool (g : Config) (nowMs : Nat) (es : List (Event Call Nat)) :
    (history g nowMs es).pool = Run.runs (exec (code g) tick) (.start (.init nowMs)) es :=
  Run.runs_lift (fun _ _ => rfl) _ es

end

/-- Neither counter is at its last number before any event of the schedule. -/
def Unspent (g : Config) (nowMs : Nat) (es : List (Event Call Nat)) : Prop :=
  Run.Along (exec (code g) tick) (fun P _ => P.shared.Unspent) (.start (.init nowMs)) es

instance (g : Config) (nowMs : Nat) (es : List (Event Call Nat)) :
    Decidable (Unspent g nowMs es) :=
  inferInstanceAs (Decidable (Run.Along _ _ _ _))

/-- **The simulation.** Every schedule is a history of the abstract queue. -/
theorem sim_run {g : Config} {nowMs : Nat} {es : List (Event Call Nat)} (h : Unspent g nowMs es) :
    Sim g (history g nowMs es) := by
  have hpool : ∀ H e, (watch g H e).pool = H.pool.exec (code g) tick e := fun _ _ => rfl
  refine (Run.Along.lift hpool (t := ⟨.start (.init nowMs), []⟩) h).inv
    (fun H e hs hH => sim_step hH hs e) ?_
  exact ⟨⟨rfl, rfl, rfl⟩, _, fun _ => 0, .start nowMs, rep_init g nowMs, fun _ _ => rfl,
    fun t c p h => (by cases h), fun t h => absurd rfl h, fun t t' h => absurd rfl h⟩

/-- Sixteen slots. -/
def ring16 : Config := .init Ns.bytesHash 16

/-- A call outside of any application, by caller `t`, run to its end with `n` actions. -/
def whole (t n : Nat) (req : Req) : List (Event Call Nat) :=
  .call t ⟨none, req⟩ :: List.replicate n (.step t)

/-- Two callers in turn, `n` actions each. -/
def turns (t t' n : Nat) : List (Event Call Nat) :=
  (List.replicate n [.step t, .step t']).flatten

/-- Two callers push at once, and two pop at once: both find the first job, and the second of them
comes too late. Caller 1 does not come back within its second, so caller 3 gets the job and deletes
it; the lease of caller 1 is good for nothing by then. -/
def contended : List (Event Call Nat) :=
  .call 0 ⟨none, .push [113] [7] 0⟩ :: .call 2 ⟨none, .push [113] [8] 0⟩ :: turns 0 2 3 ++
    .call 1 ⟨none, .pop [113] 1⟩ :: .call 2 ⟨none, .pop [113] 60⟩ :: turns 1 2 19 ++
    .env 1500 :: whole 3 19 (.pop [113] 60) ++ whole 1 16 (.delete 1) ++ whole 3 2 (.delete 2)

theorem unspent_contended : Unspent ring16 5000 contended := by decide +kernel

/-- What was noted of it. -/
theorem labels_contended : (history ring16 5000 contended).labels =
    [.put 1 ([7], ring16.hash [113]), .put 2 ([8], ring16.hash [113]), .take 1 1 6000 5000,
      .take 2 1 66500 6500, .drop 2 1] := by
  decide +kernel

/-- **The ring refines the queue of leased jobs.** Whatever the workers call at once: the calls that
succeeded, in the order they returned, are a history of the abstract queue, and the ring holds its
jobs. -/
theorem ring_refines_leases (g : Config) (nowMs : Nat) (es : List (Event Call Nat))
    (hunspent : Unspent g nowMs es) :
    (history g nowMs es).pool = Run.runs (exec (code g) tick) (.start (.init nowMs)) es ∧
      Recorded g (history g nowMs es) ∧ ∃ a, Lease.Traced (history g nowMs es).labels a ∧
        Rep g (history g nowMs es).pool.shared a := by
  obtain ⟨hrec, a, -, htr, hrep, -⟩ := sim_run hunspent
  exact ⟨history_pool g nowMs es, hrec, a, htr, hrep⟩

theorem ring_refines_leases_contended :
    ∃ a, Lease.Traced [.put 1 ([7], ring16.hash [113]), .put 2 ([8], ring16.hash [113]),
        .take 1 1 6000 5000, .take 2 1 66500 6500, .drop 2 1] a ∧
      Rep ring16 (history ring16 5000 contended).pool.shared a := by
  obtain ⟨-, -, hleases⟩ := ring_refines_leases ring16 5000 contended unspent_contended
  rwa [labels_contended] at hleases

end Askr.Queue
