import Askr.Queue.Change

/-!
# A delayed priority queue

What the ring is for, with no table in it (`Delayed`): jobs by their id, each with the full name of
its queue, the time from which it may be handed out and the time until which it is reserved. A pop
gives the first job of its queue that is ready, by the time it became available and then by id
(`Delayed.First`).

The ring is such a queue as long as it has room and the hash tells the queues of the run apart
(`Holds`, `ring_is_delayed_queue`). The ring counts attempts in 32 bits and its deadlines stop at
the last word (`Arith`), so it is not the queue in which numbers have no end (`ring_is_not_exact`).
-/

namespace Askr.Queue

open Conc Prog Nat Option

/-! ## The queue -/

structure Item where
  queue : Bytes
  availableAt : Nat
  reservedUntil : Nat
  attempts : Nat
  payload : Bytes
  /-- The pop it is out under; `0` when nobody holds it. -/
  lease : Nat

/-- The jobs by id, and how many ids and leases were given out. -/
structure Delayed where
  items : Nat → Option Item
  ids : Nat
  leases : Nat

def Delayed.empty : Delayed := { items := fun _ => none, ids := 0, leases := 0 }

/-- How the queue counts: the time some seconds after another, and the attempts after one more. -/
structure Arith where
  after : Nat → Nat → Nat
  bump : Nat → Nat

/-- Without an end. -/
def Arith.exact : Arith := { after := fun now secs => now + secs * 1000, bump := fun n => n + 1 }

/-- As the ring does. -/
def Arith.words : Arith := { after := later, bump := fun n => (n + 1) % 4294967296 }

/-- The job may be handed out from the queue. -/
def Item.Ready (t : Item) (queue : Bytes) (now : Nat) : Prop :=
  t.queue = queue ∧ t.availableAt ≤ now ∧ t.reservedUntil ≤ now

/-- The first job of the queue that is ready: the least time, and then the least id. -/
def Delayed.First (d : Delayed) (queue : Bytes) (now n : Nat) (t : Item) : Prop :=
  d.items n = some t ∧ t.Ready queue now ∧ ∀ m u, d.items m = some u → u.Ready queue now →
    t.availableAt < u.availableAt ∨ (t.availableAt = u.availableAt ∧ n ≤ m)

/-- The job is out under the lease, and belongs to the application. -/
def Item.Under (t : Item) (app : Option Ns.App) (lease : Nat) : Prop :=
  lease ≠ 0 ∧ t.lease = lease ∧ Ns.owns app t.queue = true

/-- **A call of the queue** at the time `now`. -/
inductive Delayed.Step (A : Arith) (now : Nat) (d : Delayed) : Call → Res → Delayed → Prop where
  | refuses {app : Option Ns.App} {queue payload : Bytes} {delay : Nat} :
      PAYLOAD_MAX < payload.length → Step A now d ⟨app, .push queue payload delay⟩ (.id 0) d
  | takes {app : Option Ns.App} {queue payload : Bytes} {delay : Nat} :
      payload.length ≤ PAYLOAD_MAX →
      Step A now d ⟨app, .push queue payload delay⟩ (.id (d.ids + 1))
        { d with
          items := Function.update d.items (d.ids + 1)
            (some ⟨Ns.key app queue, A.after now delay, 0, 0, payload, 0⟩)
          ids := d.ids + 1 }
  | idles {app : Option Ns.App} {queue : Bytes} {visibility : Nat} :
      (∀ n t, d.items n = some t → ¬ t.Ready (Ns.key app queue) now) →
      Step A now d ⟨app, .pop queue visibility⟩ (.job none) d
  | gives {app : Option Ns.App} {queue : Bytes} {visibility n : Nat} {t : Item} :
      d.First (Ns.key app queue) now n t →
      Step A now d ⟨app, .pop queue visibility⟩
        (.job (some ⟨d.leases + 1, A.bump t.attempts, t.payload⟩))
        { d with
          items := Function.update d.items n
            (some { t with
              attempts := A.bump t.attempts, reservedUntil := A.after now visibility
              lease := d.leases + 1 })
          leases := d.leases + 1 }
  | keeps {app : Option Ns.App} {lease : Nat} :
      (∀ n t, d.items n = some t → ¬ t.Under app lease) →
      Step A now d ⟨app, .delete lease⟩ (.flag false) d
  | drops {app : Option Ns.App} {lease n : Nat} {t : Item} : d.items n = some t →
      t.Under app lease →
      Step A now d ⟨app, .delete lease⟩ (.flag true)
        { d with items := Function.update d.items n none }
  | holds {app : Option Ns.App} {lease delay : Nat} :
      (∀ n t, d.items n = some t → ¬ t.Under app lease) →
      Step A now d ⟨app, .release lease delay⟩ (.flag false) d
  | returns {app : Option Ns.App} {lease delay n : Nat} {t : Item} : d.items n = some t →
      t.Under app lease →
      Step A now d ⟨app, .release lease delay⟩ (.flag true)
        { d with
          items := Function.update d.items n
            (some { t with availableAt := A.after now delay, reservedUntil := 0, lease := 0 }) }

/-- One event of a sequential run. -/
inductive Op where
  | call (c : Call)
  | tick (ms : Nat)

/-- A run of the queue from the time `now` on, with its answers. -/
inductive Delayed.Runs (A : Arith) : Nat → Delayed → List Op → List Res → Prop where
  | nil {now : Nat} {d : Delayed} : Runs A now d [] []
  | tick {now ms : Nat} {d : Delayed} {es : List Op} {rs : List Res} :
      Runs A (now + ms) d es rs → Runs A now d (.tick ms :: es) rs
  | call {now : Nat} {d d' : Delayed} {c : Call} {r : Res} {es : List Op} {rs : List Res} :
      d.Step A now c r d' → Runs A now d' es rs → Runs A now d (.call c :: es) (r :: rs)

/-! ## Its answers are determined -/

/-- The counters are ahead of the jobs, and no two jobs are out under one lease. -/
structure Delayed.Fresh (d : Delayed) : Prop where
  id_le : ∀ n t, d.items n = some t → n ≠ 0 ∧ n ≤ d.ids
  lease_le : ∀ n t, d.items n = some t → t.lease ≤ d.leases
  apart : ∀ n m t u, d.items n = some t → d.items m = some u → t.lease ≠ 0 → t.lease = u.lease →
    n = m

theorem Delayed.fresh_empty : Delayed.empty.Fresh :=
  ⟨fun _ _ h => (by cases h), fun _ _ h => (by cases h), fun _ _ _ _ h => (by cases h)⟩

theorem Delayed.Fresh.update {d : Delayed} (h : d.Fresh) {n ids leases : Nat} {t : Item}
    (hn : n ≠ 0 ∧ n ≤ ids) (hids : d.ids ≤ ids) (hleases : d.leases ≤ leases)
    (ht : t.lease = 0 ∨ (t.lease = d.leases + 1 ∧ leases = d.leases + 1)) :
    Delayed.Fresh { items := Function.update d.items n (some t), ids, leases } := by
  have hcases : ∀ m u, Function.update d.items n (some t) m = some u →
      (m = n ∧ u = t) ∨ (m ≠ n ∧ d.items m = some u) := by
    intro m u hu
    by_cases hmn : m = n
    · subst hmn
      rw [Function.update_self] at hu
      exact .inl ⟨rfl, (some.inj hu).symm⟩
    · rw [Function.update_of_ne hmn] at hu
      exact .inr ⟨hmn, hu⟩
  refine ⟨fun m u hu => ?_, fun m u hu => ?_, fun m m' u u' hu hu' hne heq => ?_⟩
  · rcases hcases m u hu with ⟨rfl, -⟩ | ⟨-, hu⟩
    · exact hn
    · exact ⟨(h.id_le m u hu).1, (h.id_le m u hu).2.trans hids⟩
  · rcases hcases m u hu with ⟨-, rfl⟩ | ⟨-, hu⟩
    · simp only
      omega
    · exact (h.lease_le m u hu).trans hleases
  · rcases hcases m u hu with ⟨rfl, rfl⟩ | ⟨-, hold⟩ <;>
      rcases hcases m' u' hu' with ⟨rfl, rfl⟩ | ⟨-, hold'⟩
    · rfl
    · have := h.lease_le m' u' hold'
      omega
    · have := h.lease_le m u hold
      omega
    · exact h.apart m m' u u' hold hold' hne heq

theorem Delayed.Fresh.drop {d : Delayed} (h : d.Fresh) (n : Nat) :
    Delayed.Fresh { d with items := Function.update d.items n none } := by
  have hold : ∀ m u, Function.update d.items n none m = some u → d.items m = some u := by
    intro m u hu
    by_cases hmn : m = n
    · subst hmn
      rw [Function.update_self] at hu
      cases hu
    · rwa [Function.update_of_ne hmn] at hu
  exact ⟨fun m u hu => h.id_le m u (hold m u hu), fun m u hu => h.lease_le m u (hold m u hu),
    fun m m' u u' hu hu' => h.apart m m' u u' (hold m u hu) (hold m' u' hu')⟩

section
variable {A : Arith} {now : Nat} {d d' : Delayed} {c : Call} {r : Res}

/-- A step keeps the counters ahead. -/
theorem Delayed.Fresh.step (h : d.Fresh) (hstep : d.Step A now c r d') : d'.Fresh := by
  cases hstep with
  | refuses | idles | keeps | holds => exact h
  | takes => exact h.update ⟨succ_ne_zero _, le_rfl⟩ (le_succ _) le_rfl (.inl rfl)
  | gives hfirst => exact h.update (h.id_le _ _ hfirst.1) le_rfl (le_succ _) (.inr ⟨rfl, rfl⟩)
  | drops => exact h.drop _
  | returns ht => exact h.update (h.id_le _ _ ht) le_rfl le_rfl (.inl rfl)

theorem Delayed.First.unique {queue : Bytes} {n m : Nat} {t u : Item} (h : d.First queue now n t)
    (h' : d.First queue now m u) : n = m ∧ t = u := by
  have hle := h.2.2 m u h'.1 h'.2.1
  have hge := h'.2.2 n t h.1 h.2.1
  have hnm : n = m := by omega
  subst hnm
  exact ⟨rfl, some.inj (h.1.symm.trans h'.1)⟩

theorem Delayed.Fresh.under (h : d.Fresh) {app : Option Ns.App} {lease n m : Nat} {t u : Item}
    (ht : d.items n = some t) (hu : d.items m = some u) (htl : t.Under app lease)
    (hul : u.Under app lease) : n = m ∧ t = u := by
  have hnm := h.apart n m t u ht hu (htl.2.1 ▸ htl.1) (htl.2.1.trans hul.2.1.symm)
  subst hnm
  exact ⟨rfl, some.inj (ht.symm.trans hu)⟩

theorem Delayed.Step.det (hd : d.Fresh) {r₁ r₂ : Res} {d₁ d₂ : Delayed}
    (h₁ : d.Step A now c r₁ d₁) (h₂ : d.Step A now c r₂ d₂) : r₁ = r₂ ∧ d₁ = d₂ := by
  cases h₁ with
  | refuses h =>
    cases h₂ with
    | refuses _ => exact ⟨rfl, rfl⟩
    | takes h' => omega
  | takes h =>
    cases h₂ with
    | refuses h' => omega
    | takes _ => exact ⟨rfl, rfl⟩
  | idles h =>
    cases h₂ with
    | idles _ => exact ⟨rfl, rfl⟩
    | gives h' => exact absurd h'.2.1 (h _ _ h'.1)
  | gives h =>
    cases h₂ with
    | idles h' => exact absurd h.2.1 (h' _ _ h.1)
    | gives h' =>
      obtain ⟨rfl, rfl⟩ := h.unique h'
      exact ⟨rfl, rfl⟩
  | keeps h =>
    cases h₂ with
    | keeps _ => exact ⟨rfl, rfl⟩
    | drops ht hu => exact absurd hu (h _ _ ht)
  | drops ht hu =>
    cases h₂ with
    | keeps h' => exact absurd hu (h' _ _ ht)
    | drops ht' hu' =>
      obtain ⟨rfl, rfl⟩ := hd.under ht ht' hu hu'
      exact ⟨rfl, rfl⟩
  | holds h =>
    cases h₂ with
    | holds _ => exact ⟨rfl, rfl⟩
    | returns ht hu => exact absurd hu (h _ _ ht)
  | returns ht hu =>
    cases h₂ with
    | holds h' => exact absurd hu (h' _ _ ht)
    | returns ht' hu' =>
      obtain ⟨rfl, rfl⟩ := hd.under ht ht' hu hu'
      exact ⟨rfl, rfl⟩

theorem Delayed.Runs.det {es : List Op} {rs rs' : List Res} (hd : d.Fresh)
    (h : Delayed.Runs A now d es rs) (h' : Delayed.Runs A now d es rs') : rs = rs' := by
  induction h generalizing rs' with
  | nil => cases h'; rfl
  | tick _ ih =>
    cases h' with
    | tick h' => exact ih hd h'
  | call hstep _ ih =>
    cases h' with
    | call hstep' h' =>
      obtain ⟨rfl, rfl⟩ := hstep.det hd hstep'
      rw [ih (hd.step hstep) h']

end

/-! ## The ring holds the queue -/

structure Item.In (g : Config) (t : Item) (e : Job) : Prop where
  hash : e.queueHash = g.hash t.queue
  name : e.name = t.queue.take QUEUE_NAME_MAX
  available : e.availableAt = t.availableAt
  reserved : e.reservedUntil = t.reservedUntil
  attempts : e.attempts = t.attempts
  payload : e.payload = t.payload
  fits : t.payload.length ≤ PAYLOAD_MAX
  lease : e.lease = t.lease

/-- **The ring holds the jobs of the queue**, each in one slot; their queues are among `names`. -/
structure Holds (g : Config) (names : Set Bytes) (s : Ring) (d : Delayed) : Prop where
  ids : d.ids = s.nextId
  leases : d.leases = s.nextLease
  slot : ∀ i < g.slots, (s.job i).id ≠ 0 →
    ∃ t, d.items (s.job i).id = some t ∧ t.In g (s.job i) ∧ t.queue ∈ names
  found : ∀ n t, d.items n = some t → n ≠ 0 ∧ ∃ i < g.slots, (s.job i).id = n
  unique : ∀ i < g.slots, ∀ j < g.slots, (s.job i).id ≠ 0 → (s.job i).id = (s.job j).id → i = j

section
variable {g : Config} {names : Set Bytes} {s s' : Ring} {d : Delayed} {i : Nat} {e : Job}

theorem holds_init (g : Config) (names : Set Bytes) (nowMs : Nat) :
    Holds g names (.init nowMs) .empty :=
  ⟨rfl, rfl, fun _ _ h => absurd rfl h, fun _ _ h => (by cases h), fun _ _ _ _ h => absurd rfl h⟩

theorem Holds.at (h : Holds g names s d) {n : Nat} {t : Item} (ht : d.items n = some t) :
    ∃ i < g.slots, (s.job i).id = n ∧ (s.job i).id ≠ 0 ∧ t.In g (s.job i) ∧ t.queue ∈ names := by
  obtain ⟨hne, i, hi, rfl⟩ := h.found n t ht
  obtain ⟨t', ht', hin, hmem⟩ := h.slot i hi hne
  obtain rfl := some.inj (ht.symm.trans ht')
  exact ⟨i, hi, rfl, hne, hin, hmem⟩

theorem Holds.write (h : Holds g names s d) (hi : i < g.slots) {t : Item} (hin : t.In g e)
    (hmem : t.queue ∈ names) (he : e.id ≠ 0) (hold : (s.job i).id = 0 ∨ (s.job i).id = e.id)
    (hno : ∀ j < g.slots, (s.job j).id = e.id → j = i) (hjob : s'.job = (s.put i e).job)
    {d' : Delayed} (hitems : d'.items = Function.update d.items e.id (some t))
    (hids : d'.ids = s'.nextId) (hleases : d'.leases = s'.nextLease) : Holds g names s' d' := by
  obtain ⟨hself, hother⟩ := Ring.of_put hjob
  refine ⟨hids, hleases, fun j hj hne => ?_, fun n u hu => ?_, fun j hj k hk hne heq => ?_⟩
  · rw [hitems]
    by_cases hji : j = i
    · rw [hji, hself]
      exact ⟨t, Function.update_self .., hin, hmem⟩
    · rw [hother j hji] at hne ⊢
      rw [Function.update_of_ne fun heq => hji (hno j hj heq)]
      exact h.slot j hj hne
  · rw [hitems] at hu
    by_cases hn : n = e.id
    · exact ⟨hn ▸ he, i, hi, by rw [hself, hn]⟩
    · rw [Function.update_of_ne hn] at hu
      obtain ⟨hne, j, hj, rfl⟩ := h.found n u hu
      have hji : j ≠ i := by
        rintro rfl
        exact hold.elim hne hn
      exact ⟨hne, j, hj, by rw [hother j hji]⟩
  · by_cases hji : j = i <;> by_cases hki : k = i
    · rw [hji, hki]
    · rw [hji, hself, hother k hki] at heq
      exact absurd (hno k hk heq.symm) hki
    · rw [hki, hself, hother j hji] at heq
      exact absurd (hno j hj heq) hji
    · rw [hother j hji] at hne heq
      rw [hother k hki] at heq
      exact h.unique j hj k hk hne heq

theorem Holds.change (h : Holds g names s d) (hi : i < g.slots) (hne : (s.job i).id ≠ 0)
    (heid : e.id = (s.job i).id) {t : Item} (hin : t.In g e) (hmem : t.queue ∈ names)
    (hjob : s'.job = (s.put i e).job) {d' : Delayed}
    (hitems : d'.items = Function.update d.items (s.job i).id (some t))
    (hids : d'.ids = s'.nextId) (hleases : d'.leases = s'.nextLease) : Holds g names s' d' := by
  refine h.write hi hin hmem (heid ▸ hne) (.inr heid.symm) (fun j hj heq => ?_) hjob
    (by rw [hitems, heid]) hids hleases
  exact (h.unique i hi j hj hne (heq.trans heid).symm).symm

theorem Holds.clear (h : Holds g names s d) (hi : i < g.slots) (hne : (s.job i).id ≠ 0)
    (he : e.id = 0) :
    Holds g names (s.put i e) { d with items := Function.update d.items (s.job i).id none } := by
  have hkept : ∀ j, ((s.put i e).job j).id ≠ 0 → j ≠ i := by
    rintro j hj rfl
    rw [Ring.put_self] at hj
    exact hj he
  refine ⟨h.ids, h.leases, fun j hj hjne => ?_, fun n u hu => ?_, fun j hj k hk hjne heq => ?_⟩
  · have hji := hkept j hjne
    rw [Ring.put_ne _ _ _ hji] at hjne ⊢
    obtain ⟨t, ht, hin, hmem⟩ := h.slot j hj hjne
    refine ⟨t, ?_, hin, hmem⟩
    exact (Function.update_of_ne (fun heq => hji (h.unique j hj i hi hjne heq)) ..).trans ht
  · have hn : n ≠ (s.job i).id := by
      rintro rfl
      simp at hu
    obtain ⟨hn0, j, hj, rfl⟩ := h.found n u ((Function.update_of_ne hn ..).symm.trans hu)
    exact ⟨hn0, j, hj, by rw [Ring.put_ne _ _ _ fun heq => hn (by rw [heq])]⟩
  · have hji := hkept j hjne
    have hki := hkept k (heq ▸ hjne)
    rw [Ring.put_ne _ _ _ hji] at hjne heq
    rw [Ring.put_ne _ _ _ hki] at heq
    exact h.unique j hj k hk hjne heq

theorem Holds.congr (h : Holds g names s d) (hjob : s'.job = s.job) (hid : s'.nextId = s.nextId)
    (hlease : s'.nextLease = s.nextLease) : Holds g names s' d := by
  refine ⟨h.ids.trans hid.symm, h.leases.trans hlease.symm, ?_, ?_, ?_⟩
  · rw [hjob]
    exact h.slot
  · rw [hjob]
    exact h.found
  · rw [hjob]
    exact h.unique

/-! ## Calls of the ring are calls of the queue -/

theorem Item.In.waits_iff {t : Item} (hin : t.In g e) (hmem : t.queue ∈ names)
    (hinj : Set.InjOn g.hash names) {queue : Bytes} (hq : queue ∈ names) (hid : e.id ≠ 0)
    {now : Nat} : e.waits (g.hash queue) now ↔ t.Ready queue now := by
  have hname : e.queueHash = g.hash queue ↔ t.queue = queue := by
    rw [hin.hash]
    exact ⟨fun h => hinj hmem hq h, fun h => by rw [h]⟩
  simp only [Job.waits, Item.Ready, Job.ready, Bool.and_eq_true, Bool.or_eq_true,
    decide_eq_true_eq, hname, hin.available, hin.reserved]
  constructor
  · rintro ⟨-, hq, ha, hr⟩
    exact ⟨hq, ha, by omega⟩
  · rintro ⟨hq, ha, hr⟩
    exact ⟨hid, hq, ha, by omega⟩

theorem Item.In.owns {t : Item} (hin : t.In g e) (app : Option Ns.App) :
    Ns.owns app (e.name.take QUEUE_NAME_MAX) = Ns.owns app t.queue := by
  rw [hin.name, List.take_take, Nat.min_self]
  exact Ns.owns_take app t.queue (by decide)

theorem Holds.leasesApart (h : Holds g names s d) (hd : d.Fresh) : LeasesApart g s := by
  intro i hi j hj hne hne' hl heq
  obtain ⟨t, ht, hin, -⟩ := h.slot i hi hne
  obtain ⟨u, hu, hin', -⟩ := h.slot j hj hne'
  refine h.unique i hi j hj hne (hd.apart _ _ t u ht hu ?_ ?_)
  · rwa [← hin.lease]
  · rw [← hin.lease, ← hin'.lease, heq]

/-- A push into a ring with room. -/
theorem Holds.push (h : Holds g names s d) (hd : d.Fresh) {app : Option Ns.App}
    {queue payload : Bytes} (hmem : Ns.key app queue ∈ names)
    (hroom : HasFree g s ∨ PAYLOAD_MAX < payload.length) (hs : s.Unspent) (delay : Nat) :
    ∃ d', Holds g names ((push g (Ns.key app queue) payload delay).run s).1 d' ∧
      d.Step .words s.nowMs ⟨app, .push queue payload delay⟩
        (.id ((push g (Ns.key app queue) payload delay).run s).2) d' := by
  by_cases hlen : PAYLOAD_MAX < payload.length
  · rw [push_refused (.inr hlen)]
    exact ⟨d, h, .refuses hlen⟩
  have hfree := hroom.resolve_right hlen
  have href : ¬ Refused g payload := by
    rintro (hslots | hlen')
    · obtain ⟨i, hi, -⟩ := hfree
      omega
    · exact hlen hlen'
  obtain ⟨i, hi, hzero, hrun⟩ := push_run href hfree (Ns.key app queue) delay
  rw [hrun, hs.id, ← h.ids]
  refine ⟨_, ?_, .takes (Nat.not_lt.1 hlen)⟩
  have hnew : ∀ j < g.slots, (s.job j).id ≠ d.ids + 1 := by
    intro j hj heq
    obtain ⟨t, ht, -⟩ := h.slot j hj (by rw [heq]; exact succ_ne_zero _)
    have := (hd.id_le _ _ ht).2
    omega
  refine h.write hi (e := pushed (Ns.key app queue) payload (g.hash (Ns.key app queue)) (d.ids + 1)
    s.nowMs (later s.nowMs delay)) (t := ⟨Ns.key app queue, later s.nowMs delay, 0, 0, payload, 0⟩)
    ⟨rfl, rfl, rfl, rfl, rfl, rfl, Nat.not_lt.1 hlen, rfl⟩ hmem (succ_ne_zero _) (.inl hzero)
    (fun j hj heq => absurd heq (hnew j hj)) ?_ ?_ ?_ ?_
  exacts [rfl, rfl, rfl, h.leases]

/-- A pop of the ring is a pop of the queue. -/
theorem Holds.pop (h : Holds g names s d) (hinj : Set.InjOn g.hash names) {app : Option Ns.App}
    {queue : Bytes} (hmem : Ns.key app queue ∈ names) (hs : s.Unspent) (visibility : Nat) :
    ∃ d', Holds g names ((pop g (Ns.key app queue) visibility).run s).1 d' ∧
      d.Step .words s.nowMs ⟨app, .pop queue visibility⟩
        (.job ((pop g (Ns.key app queue) visibility).run s).2) d' := by
  rcases pop_run g (Ns.key app queue) visibility s with
    ⟨lane, hrun, hno⟩ | ⟨lane, i, hi, hw, hfirst, hrun⟩
  · rw [hrun]
    refine ⟨d, h.congr rfl rfl rfl, .idles fun n t ht hready => ?_⟩
    obtain ⟨i, hi, -, hne, hin, htmem⟩ := h.at ht
    exact hno i hi ((hin.waits_iff htmem hinj hmem hne).2 hready)
  · obtain ⟨t, ht, hin, htmem⟩ := h.slot i hi hw.1
    have hanswer : (s.job i).payload.take PAYLOAD_MAX = t.payload := by
      rw [hin.payload, List.take_of_length_le hin.fits]
    rw [hrun, hanswer, hin.attempts, hs.lease, ← h.leases]
    refine ⟨_, ?_, .gives ⟨ht, (hin.waits_iff htmem hinj hmem hw.1).1 hw, fun m u hu hready => ?_⟩⟩
    · have hin' : Item.In g
          { t with
            attempts := (t.attempts + 1) % 4294967296, reservedUntil := later s.nowMs visibility
            lease := d.leases + 1 }
          ((s.job i).reserve (d.leases + 1) s.nowMs visibility) :=
        ⟨hin.hash, hin.name, hin.available, rfl,
          congrArg (fun n => (n + 1) % 4294967296) hin.attempts, hin.payload, hin.fits, rfl⟩
      refine h.change hi hw.1 ?_ hin' htmem ?_ ?_ ?_ ?_
      exacts [rfl, rfl, rfl, h.ids, rfl]
    · obtain ⟨j, hj, rfl, hne, hin', hmem'⟩ := h.at hu
      rw [← hin.available, ← hin'.available]
      exact hfirst j hj ((hin'.waits_iff hmem' hinj hmem hne).2 hready)

theorem Holds.presents (h : Holds g names s d) {app : Option Ns.App} {lease : Nat}
    {act : Job → Job} {out : Ring × Bool} (hout : Presents g app lease act s out) :
    (out = (s, false) ∧ ∀ n t, d.items n = some t → ¬ t.Under app lease) ∨
    ∃ i < g.slots, (s.job i).id ≠ 0 ∧ out = (s.put i (act (s.job i)), true) ∧
      ∃ t, d.items (s.job i).id = some t ∧ t.In g (s.job i) ∧ t.queue ∈ names ∧
        t.Under app lease := by
  rcases hout with ⟨rfl, hno⟩ | ⟨i, hi, hne, hl, hlease, howns, rfl⟩
  · refine .inl ⟨rfl, fun n t ht hunder => ?_⟩
    obtain ⟨i, hi, -, hne, hin, -⟩ := h.at ht
    have := hno i hi hne hunder.1 (hin.lease.trans hunder.2.1)
    rw [hin.owns, hunder.2.2] at this
    cases this
  · obtain ⟨t, ht, hin, hmem⟩ := h.slot i hi hne
    rw [hin.owns] at howns
    exact .inr ⟨i, hi, hne, rfl, t, ht, hin, hmem, hl, hin.lease.symm.trans hlease, howns⟩

theorem Holds.delete (h : Holds g names s d) (hd : d.Fresh) (app : Option Ns.App) (lease : Nat) :
    ∃ d', Holds g names ((delete g app lease).run s).1 d' ∧
      d.Step .words s.nowMs ⟨app, .delete lease⟩ (.flag ((delete g app lease).run s).2) d' := by
  rcases h.presents ((h.leasesApart hd).delete_run app lease) with
    ⟨hout, hno⟩ | ⟨i, hi, hne, hout, t, ht, -, -, hunder⟩
  · rw [hout]
    exact ⟨d, h, .keeps hno⟩
  · rw [hout]
    exact ⟨_, h.clear hi hne rfl, .drops ht hunder⟩

theorem Holds.release (h : Holds g names s d) (hd : d.Fresh) (app : Option Ns.App)
    (lease delay : Nat) : ∃ d', Holds g names ((release g app lease delay).run s).1 d' ∧
      d.Step .words s.nowMs ⟨app, .release lease delay⟩
        (.flag ((release g app lease delay).run s).2) d' := by
  rcases h.presents ((h.leasesApart hd).release_run app lease delay) with
    ⟨hout, hno⟩ | ⟨i, hi, hne, hout, t, ht, hin, hmem, hunder⟩
  · rw [hout]
    exact ⟨d, h, .holds hno⟩
  · rw [hout]
    refine ⟨_, ?_, .returns ht hunder⟩
    have hin' : Item.In g
        { t with availableAt := later s.nowMs delay, reservedUntil := 0, lease := 0 }
        ((s.job i).giveBack (later s.nowMs delay)) :=
      ⟨hin.hash, hin.name, rfl, rfl, hin.attempts, hin.payload, hin.fits, rfl⟩
    refine h.change hi hne ?_ hin' hmem ?_ ?_ ?_ ?_
    exacts [rfl, rfl, rfl, h.ids, h.leases]

/-! ## Runs -/

/-- The queue a call names, in its namespace. -/
def Call.queue? (c : Call) : Option Bytes :=
  match c.req with
  | .push queue _ _ => some (Ns.key c.app queue)
  | .pop queue _ => some (Ns.key c.app queue)
  | .delete _ => none
  | .release _ _ => none

/-- A push finds a free slot, unless it is refused. -/
def Roomy (g : Config) (s : Ring) : Op → Prop
  | .call ⟨_, .push _ payload _⟩ => HasFree g s ∨ PAYLOAD_MAX < payload.length
  | _ => True

/-- What an event does to the ring: a call runs to its end. -/
def seqStep (g : Config) (s : Ring) : Op → Ring
  | .call c => ((code g c).run s).1
  | .tick ms => tick ms s

/-- The ring after a run that starts with an empty one. -/
abbrev ringAfter (g : Config) (nowMs : Nat) (es : List Op) : Ring :=
  Run.runs (seqStep g) (.init nowMs) es

theorem ringAfter_append (g : Config) (nowMs : Nat) (es es' : List Op) :
    ringAfter g nowMs (es ++ es') = Run.runs (seqStep g) (ringAfter g nowMs es) es' :=
  Run.runs_append ..

def answers (g : Config) : Ring → List Op → List Res
  | _, [] => []
  | s, .call c :: es => ((code g c).run s).2 :: answers g (seqStep g s (.call c)) es
  | s, .tick ms :: es => answers g (seqStep g s (.tick ms)) es

/-- A call of the ring is a call of the queue. -/
theorem Holds.call (h : Holds g names s d) (hd : d.Fresh) (hinj : Set.InjOn g.hash names) {c : Call}
    (hname : ∀ n ∈ c.queue?, n ∈ names) (hroom : Roomy g s (.call c)) (hs : s.Unspent) :
    ∃ d', Holds g names ((code g c).run s).1 d' ∧
      d.Step .words s.nowMs c ((code g c).run s).2 d' := by
  obtain ⟨app, req⟩ := c
  cases req with
  | push queue payload delay =>
    simp only [code, run_map]
    exact h.push hd (hname _ rfl) hroom hs delay
  | pop queue visibility =>
    simp only [code, run_map]
    exact h.pop hinj (hname _ rfl) hs visibility
  | delete lease =>
    simp only [code, run_map]
    exact h.delete hd app lease
  | release lease delay =>
    simp only [code, run_map]
    exact h.release hd app lease delay

/-- So a run of the ring is a run of the queue. -/
theorem Holds.runs (hinj : Set.InjOn g.hash names) {es : List Op}
    (hnames : ∀ c, .call c ∈ es → ∀ n ∈ c.queue?, n ∈ names) (h : Holds g names s d) (hd : d.Fresh)
    (hroom : Run.Along (seqStep g) (Roomy g) s es)
    (hs : Run.Along (seqStep g) (fun s _ => s.Unspent) s es) :
    Delayed.Runs .words s.nowMs d es (answers g s es) := by
  induction es generalizing s d with
  | nil => exact .nil
  | cons e es ih =>
    have hrest : ∀ c, .call c ∈ es → ∀ n ∈ c.queue?, n ∈ names := fun c hc =>
      hnames c (.tail _ hc)
    cases e with
    | call c =>
      obtain ⟨d', h', hstep⟩ := h.call hd hinj (hnames c (.head _)) hroom.1 hs.1
      refine .call hstep ?_
      rw [← call_nowMs g s c]
      exact ih hrest h' (hd.step hstep) hroom.2 hs.2
    | tick ms => exact .tick (ih (s := tick ms s) hrest (h.congr rfl rfl rfl) hd hroom.2 hs.2)

end

/-- **The ring is a delayed priority queue.** In every sequential run from an empty ring that has
room for its pushes and ids and leases left to give out, on queues that the hash tells apart, the
answers are those of the queue, and the queue allows no others. -/
theorem ring_is_delayed_queue (g : Config) (nowMs : Nat) (es : List Op) (names : Set Bytes)
    (hinj : Set.InjOn g.hash names) (hnames : ∀ c, .call c ∈ es → ∀ n ∈ c.queue?, n ∈ names)
    (hroom : Run.Along (seqStep g) (Roomy g) (.init nowMs) es)
    (hunspent : Run.Along (seqStep g) (fun s _ => s.Unspent) (.init nowMs) es) :
    Delayed.Runs .words nowMs .empty es (answers g (.init nowMs) es) ∧
      ∀ rs, Delayed.Runs .words nowMs .empty es rs → rs = answers g (.init nowMs) es := by
  have hruns := (holds_init g names nowMs).runs hinj hnames Delayed.fresh_empty hroom hunspent
  exact ⟨hruns, fun rs hrs => hrs.det Delayed.fresh_empty hruns⟩

/-! ## Where the ring's numbers end -/

deriving instance DecidableEq for Res

/-- A ring of sixteen slots. -/
def mailRing : Config := .init Ns.bytesHash 16

def mail : Bytes := Bytes.ofString "mail"

/-- A job is taken and given back for the longest delay there is. -/
def longRelease : List Op :=
  [.call ⟨none, .push mail [1] 0⟩, .call ⟨none, .pop mail 60⟩, .call ⟨none, .release 1 (U64 - 1)⟩,
    .tick (U64 - 1), .call ⟨none, .pop mail 60⟩]

theorem longRelease_names :
    ∀ c, .call c ∈ longRelease → ∀ n ∈ c.queue?, n ∈ ({mail} : Set Bytes) := by
  intro c hc n hn
  simp only [longRelease, List.mem_cons, Op.call.injEq, reduceCtorEq, List.not_mem_nil, or_false,
    false_or] at hc
  rcases hc with rfl | rfl | rfl | rfl <;> simp_all [Call.queue?, Ns.key]

theorem longRelease_roomy : Run.Along (seqStep mailRing) (Roomy mailRing) (.init 0) longRelease :=
  ⟨.inl (by decide), trivial, trivial, trivial, trivial, trivial⟩

theorem ring_is_delayed_queue_mail :
    Delayed.Runs .words 0 .empty longRelease (answers mailRing (.init 0) longRelease) :=
  (ring_is_delayed_queue mailRing 0 longRelease {mail} (Set.injOn_singleton _ _) longRelease_names
    longRelease_roomy (by decide)).1

/-- The ring is the queue in which numbers have no end. -/
def RingIsExact : Prop :=
  ∀ (g : Config) (nowMs : Nat) (es : List Op) (names : Set Bytes), Set.InjOn g.hash names →
    (∀ c, .call c ∈ es → ∀ n ∈ c.queue?, n ∈ names) →
    Run.Along (seqStep g) (Roomy g) (.init nowMs) es →
    Delayed.Runs .exact nowMs .empty es (answers g (.init nowMs) es)

/-- The job, released for as long as a word can say, is not available when the clock is at the last
word. -/
theorem longRelease_exact : Delayed.Runs .exact 0 .empty longRelease
    [.id 1, .job (some ⟨1, 1, [1]⟩), .flag true, .job none] := by
  have honly : ∀ {items : Nat → Option Item} {m : Nat} {t u : Item}, (∀ m ≠ 1, items m = none) →
      Function.update items 1 (some t) m = some u → m = 1 ∧ u = t := by
    intro items m t u hnone hu
    by_cases hm : m = 1
    · subst hm
      rw [Function.update_self] at hu
      exact ⟨rfl, (some.inj hu).symm⟩
    · rw [Function.update_of_ne hm, hnone m hm] at hu
      cases hu
  have hready : Item.Ready ⟨mail, 0, 0, 0, [1], 0⟩ mail 0 := ⟨rfl, le_rfl, le_rfl⟩
  refine .call (.takes (by decide)) (.call
    (.gives (n := 1) (t := ⟨mail, 0, 0, 0, [1], 0⟩) ⟨rfl, hready, fun m u hu _ => ?_⟩)
    (.call (.returns (n := 1) (t := ⟨mail, 0, 60000, 1, [1], 1⟩) rfl ⟨by decide, rfl, by decide⟩)
      (.tick (.call (.idles fun m u hu hready => ?_) .nil))))
  · obtain ⟨rfl, rfl⟩ := honly (fun _ _ => rfl) hu
    exact .inr ⟨rfl, le_rfl⟩
  · obtain ⟨-, rfl⟩ := honly (fun m hm => by simp [Delayed.empty, Function.update_of_ne hm]) hu
    exact absurd hready.2.1 (by decide)

/-- **The ring hands the job out before its time**, at the last word, where its deadline stopped. -/
theorem ring_is_not_exact : ¬ RingIsExact := by
  intro h
  have hruns := h mailRing 0 longRelease {mail} (Set.injOn_singleton _ _) longRelease_names
    longRelease_roomy
  have hanswers := hruns.det Delayed.fresh_empty longRelease_exact
  have hsome : (answers mailRing (.init 0) longRelease)[3]? = some (.job (some ⟨2, 2, [1]⟩)) := by
    decide +kernel
  rw [hanswers] at hsome
  cases hsome

end Askr.Queue
