import Askr.Queue.Alone

/-!
# The queue of one application

From the side of one application the ring is a queue of its own (`Desk`): its jobs in the order it
pushed them, each with the pop it is out under, counted by the pops of the application. Ids and
leases come from counters that all applications move, and do not occur in it.

`Shows` says that a ring shows a desk to an application, which holds the leases its pops returned. A
call of the application is a step of the desk (`shows_push`, `shows_pop`, `shows_delete`,
`shows_release`), a step is determined by the desk (`Step.det`), and a call of another one is none
(`Aside`).
-/

namespace Askr.Queue

open Conc Function Prog List Option Nat

/-! ## Desks -/

/-- A job as its application sees it. -/
structure Task where
  queueHash : Nat
  availableAt : Nat
  reservedUntil : Nat
  attempts : Nat
  payload : Bytes
  /-- The pop it is out under. -/
  ticket : Option Nat

/-- The jobs of an application, by the number of their push. -/
structure Desk where
  jobs : Nat → Option Task
  pushes : Nat
  pops : Nat

def Desk.empty : Desk := { jobs := fun _ => none, pushes := 0, pops := 0 }

/-- The job waits in the queue of the hash. -/
def Task.waits (t : Task) (qh now : Nat) : Prop :=
  t.queueHash = qh ∧ t.availableAt ≤ now ∧ (t.reservedUntil = 0 ∨ t.reservedUntil ≤ now)

/-- The first job that waits in the queue: the one that became available first, and of those the one
that was pushed first. -/
def Desk.First (d : Desk) (qh now n : Nat) (t : Task) : Prop :=
  d.jobs n = some t ∧ t.waits qh now ∧ ∀ m u, d.jobs m = some u → u.waits qh now →
    t.availableAt < u.availableAt ∨ (t.availableAt = u.availableAt ∧ n ≤ m)

/-- What an application asks for. A lease is named by the pop that returned it; `none` is a number
that no pop of the application returned. -/
inductive Ask where
  | push (queue payload : Bytes) (delay : Nat)
  | pop (queue : Bytes) (visibility : Nat)
  | delete (ticket : Option Nat)
  | release (ticket : Option Nat) (delay : Nat)

/-- What it sees of the answer: whether a push was taken, the attempts and the payload of a job, and
whether a lease was good. -/
inductive Answer where
  | took (b : Bool)
  | job (r : Option (Nat × Bytes))
  | flag (b : Bool)
deriving DecidableEq

/-- The job of a desk once it is reserved. -/
def Task.reserve (t : Task) (now visibility ticket : Nat) : Task :=
  { t with
    attempts := (t.attempts + 1) % 4294967296, reservedUntil := later now visibility
    ticket := some ticket }

/-- The job of a desk once it is released. -/
def Task.giveBack (t : Task) (available : Nat) : Task :=
  { t with availableAt := available, reservedUntil := 0, ticket := none }

/-- **A step of the desk** at the time `now`. -/
inductive Step (g : Config) (now : Nat) (d : Desk) : Ask → Answer → Desk → Prop where
  | refuses {queue payload : Bytes} {delay : Nat} : Refused g payload →
      Step g now d (.push queue payload delay) (.took false) d
  | takes {queue payload : Bytes} {delay : Nat} : ¬ Refused g payload →
      Step g now d (.push queue payload delay) (.took true)
        { d with
          jobs := update d.jobs d.pushes
            (some ⟨g.hash queue, later now delay, 0, 0, payload, none⟩)
          pushes := d.pushes + 1 }
  | idles {queue : Bytes} {visibility : Nat} :
      (∀ n t, d.jobs n = some t → ¬ t.waits (g.hash queue) now) →
      Step g now d (.pop queue visibility) (.job none) d
  | gives {queue : Bytes} {visibility n : Nat} {t : Task} : d.First (g.hash queue) now n t →
      Step g now d (.pop queue visibility)
        (.job (some ((t.attempts + 1) % 4294967296, t.payload.take PAYLOAD_MAX)))
        { d with
          jobs := update d.jobs n (some (t.reserve now visibility d.pops))
          pops := d.pops + 1 }
  | keeps {k : Option Nat} : (∀ n t, d.jobs n = some t → k ≠ none → t.ticket ≠ k) →
      Step g now d (.delete k) (.flag false) d
  | drops {k n : Nat} {t : Task} : d.jobs n = some t → t.ticket = some k →
      Step g now d (.delete (some k)) (.flag true)
        { d with jobs := update d.jobs n none }
  | holds {k : Option Nat} {delay : Nat} :
      (∀ n t, d.jobs n = some t → k ≠ none → t.ticket ≠ k) →
      Step g now d (.release k delay) (.flag false) d
  | returns {k n delay : Nat} {t : Task} : d.jobs n = some t → t.ticket = some k →
      Step g now d (.release (some k) delay) (.flag true)
        { d with jobs := update d.jobs n (some (t.giveBack (later now delay))) }

/-- No two jobs are out under one pop. -/
def Desk.Distinct (d : Desk) : Prop :=
  ∀ n m t u, d.jobs n = some t → d.jobs m = some u → t.ticket = u.ticket → t.ticket ≠ none → n = m

theorem Desk.First.unique {d : Desk} {qh now n m : Nat} {t u : Task} (h : d.First qh now n t)
    (h' : d.First qh now m u) : n = m ∧ t = u := by
  have hle := h.2.2 m u h'.1 h'.2.1
  have hge := h'.2.2 n t h.1 h.2.1
  have hnm : n = m := by omega
  subst hnm
  exact ⟨rfl, some.inj (h.1.symm.trans h'.1)⟩

theorem Desk.Distinct.unique {d : Desk} (hd : d.Distinct) {k n m : Nat} {t u : Task}
    (ht : d.jobs n = some t) (hk : t.ticket = some k) (hu : d.jobs m = some u)
    (hk' : u.ticket = some k) : n = m ∧ t = u := by
  have hnm := hd n m t u ht hu (hk.trans hk'.symm) (by simp [hk])
  subst hnm
  exact ⟨rfl, some.inj (ht.symm.trans hu)⟩

theorem Step.det {g : Config} {now : Nat} {d d₁ d₂ : Desk} {q : Ask} {r₁ r₂ : Answer}
    (hd : d.Distinct) (h₁ : Step g now d q r₁ d₁) (h₂ : Step g now d q r₂ d₂) :
    r₁ = r₂ ∧ d₁ = d₂ := by
  cases h₁ with
  | refuses h =>
    cases h₂ with
    | refuses _ => exact ⟨rfl, rfl⟩
    | takes h' => exact absurd h h'
  | takes h =>
    cases h₂ with
    | refuses h' => exact absurd h' h
    | takes _ => exact ⟨rfl, rfl⟩
  | idles h =>
    cases h₂ with
    | idles _ => exact ⟨rfl, rfl⟩
    | gives h' => exact absurd h'.2.1 (h _ _ h'.1)
  | gives h =>
    cases h₂ with
    | idles h' => exact absurd h.2.1 (h' _ _ h.1)
    | gives h' =>
      obtain ⟨rfl, rfl⟩ := h.unique h'
      exact ⟨rfl, rfl⟩
  | keeps h =>
    cases h₂ with
    | keeps _ => exact ⟨rfl, rfl⟩
    | drops ht hk => exact absurd hk (h _ _ ht (by simp))
  | drops ht hk =>
    cases h₂ with
    | keeps h' => exact absurd hk (h' _ _ ht (by simp))
    | drops ht' hk' =>
      obtain ⟨rfl, rfl⟩ := hd.unique ht hk ht' hk'
      exact ⟨rfl, rfl⟩
  | holds h =>
    cases h₂ with
    | holds _ => exact ⟨rfl, rfl⟩
    | returns ht hk => exact absurd hk (h _ _ ht (by simp))
  | returns ht hk =>
    cases h₂ with
    | holds h' => exact absurd hk (h' _ _ ht (by simp))
    | returns ht' hk' =>
      obtain ⟨rfl, rfl⟩ := hd.unique ht hk ht' hk'
      exact ⟨rfl, rfl⟩

/-! ## The ring shows a desk -/

/-- The slot holds a job of the application. -/
def Owned (b : Ns.App) (e : Job) : Prop :=
  e.id ≠ 0 ∧ Ns.owns (some b) (e.name.take QUEUE_NAME_MAX) = true

/-- The job as the application sees it that got the leases `taken`. -/
def Job.task (taken : List Nat) (e : Job) : Task :=
  { queueHash := e.queueHash, availableAt := e.availableAt, reservedUntil := e.reservedUntil
    attempts := e.attempts, payload := e.payload, ticket := taken.idxOf? e.lease }

/-- **The ring shows the desk `d` to the application `b`**, whose pops have returned the leases
`taken`. `idOf` are the ids of its pushes. -/
structure Shows (g : Config) (b : Ns.App) (s : Ring) (taken : List Nat) (d : Desk)
    (idOf : Nat → Nat) : Prop where
  pops : taken.length = d.pops
  nodup : taken.Nodup
  drawn : ∀ l ∈ taken, l ≠ 0 ∧ l ≤ s.nextLease
  order : ∀ m n, m < n → n < d.pushes → idOf m < idOf n
  bound : ∀ n < d.pushes, idOf n ≤ s.nextId
  mine : ∀ i < g.slots, Owned b (s.job i) →
    ((s.job i).lease ≠ 0 → (s.job i).lease ∈ taken) ∧
      ∃ n < d.pushes, idOf n = (s.job i).id ∧ d.jobs n = some ((s.job i).task taken)
  there : ∀ n t, d.jobs n = some t →
    n < d.pushes ∧ ∃ i < g.slots, Owned b (s.job i) ∧ (s.job i).id = idOf n

section
variable {g : Config} {names : Set Bytes} {b : Ns.App} {s s' : Ring} {taken : List Nat} {d : Desk}
  {idOf : Nat → Nat} {i : Nat}

theorem shows_init (g : Config) (b : Ns.App) (nowMs : Nat) :
    Shows g b (.init nowMs) [] .empty fun _ => 0 where
  pops := rfl
  nodup := nodup_nil
  drawn l hl := absurd hl (by simp)
  order m n _ hn := absurd hn (Nat.not_lt_zero n)
  bound n hn := absurd hn (Nat.not_lt_zero n)
  mine i _ h := absurd rfl h.1
  there n t h := by cases h

theorem Shows.order_inj (h : Shows g b s taken d idOf) {m n : Nat} (hm : m < d.pushes)
    (hn : n < d.pushes) (heq : idOf m = idOf n) : m = n := by
  rcases Nat.lt_trichotomy m n with hlt | rfl | hlt
  · exact absurd heq (Nat.ne_of_lt (h.order m n hlt hn))
  · rfl
  · exact absurd heq.symm (Nat.ne_of_lt (h.order n m hlt hm))

/-- The job of the desk is the one in its slot. -/
theorem Shows.slot (h : Shows g b s taken d idOf) {n : Nat} {t : Task} (ht : d.jobs n = some t) :
    ∃ i < g.slots, Owned b (s.job i) ∧ (s.job i).id = idOf n ∧ t = (s.job i).task taken := by
  obtain ⟨hn, i, hi, hown, hid⟩ := h.there n t ht
  obtain ⟨-, m, hm, hid', hjob⟩ := h.mine i hi hown
  obtain rfl := h.order_inj hm hn (hid'.trans hid)
  exact ⟨i, hi, hown, hid, some.inj (ht.symm.trans hjob)⟩

variable {l : List Nat}

theorem idxOf?_eq_some (hl : l.Nodup) {x k : Nat} : l.idxOf? x = some k ↔ l[k]? = some x := by
  rw [idxOf?_eq_some_iff, List.getElem?_eq_some_iff]
  refine ⟨fun ⟨hk, hx, _⟩ => ⟨hk, hx⟩, fun ⟨hk, hx⟩ => ⟨hk, hx, fun j hj hjx => ?_⟩⟩
  exact Nat.ne_of_lt hj ((getElem_inj hl).1 (hjx.trans hx.symm))

theorem mem_iff_idxOf? {x : Nat} : x ∈ l ↔ ∃ k, l.idxOf? x = some k := by
  rw [← isSome_idxOf?, isSome_iff_exists]

theorem idxOf?_inj (hl : l.Nodup) {x y k : Nat} (hx : l.idxOf? x = some k)
    (hy : l.idxOf? y = some k) : x = y :=
  some.inj (((idxOf?_eq_some hl).1 hx).symm.trans ((idxOf?_eq_some hl).1 hy))

theorem idxOf?_append {y : Nat} (hl : (l ++ [y]).Nodup) (x : Nat) :
    (l ++ [y]).idxOf? x = if x = y then some l.length else l.idxOf? x := by
  have hl' : l.Nodup := (nodup_append.1 hl).1
  split
  · rename_i hxy
    rw [idxOf?_eq_some hl, hxy, getElem?_concat_length]
  · rename_i hxy
    refine ext fun k => ?_
    rw [idxOf?_eq_some hl, idxOf?_eq_some hl', getElem?_append]
    split
    · rfl
    · rename_i hk
      rw [getElem?_eq_none (Nat.not_lt.1 hk), getElem?_singleton]
      split
      · exact ⟨fun heq => absurd (some.inj heq).symm hxy, fun heq => by cases heq⟩
      · rfl

/-- No two jobs of a desk that is shown are out under one pop. -/
theorem Shows.distinct (h : Shows g b s taken d idOf) (hs : Tidy g names s) : d.Distinct := by
  intro n m t u ht hu heq hne
  obtain ⟨i, hi, hown, hid, rfl⟩ := h.slot ht
  obtain ⟨j, hj, hown', hid', rfl⟩ := h.slot hu
  obtain ⟨k, hk⟩ := ne_none_iff_exists'.1 hne
  have hlease : (s.job i).lease = (s.job j).lease := idxOf?_inj h.nodup hk (heq.symm.trans hk)
  have hne0 := (h.drawn _ (mem_iff_idxOf?.2 ⟨k, hk⟩)).1
  obtain rfl := hs.lease_inj i hi j hj hown.1 hown'.1 hne0 hlease
  exact h.order_inj (h.there n _ ht).1 (h.there m _ hu).1 (hid.symm.trans hid')

/-! ## Other applications -/

/-- The jobs of the application are left alone, and the counters only grow. -/
structure Aside (g : Config) (b : Ns.App) (s s' : Ring) : Prop where
  same : ∀ i < g.slots, Owned b (s.job i) ∨ Owned b (s'.job i) → s'.job i = s.job i
  ids : s.nextId ≤ s'.nextId
  leases : s.nextLease ≤ s'.nextLease

/-- What is done aside is not seen. -/
theorem Shows.aside (h : Shows g b s taken d idOf) (ha : Aside g b s s') :
    Shows g b s' taken d idOf where
  pops := h.pops
  nodup := h.nodup
  drawn l hl := ⟨(h.drawn l hl).1, (h.drawn l hl).2.trans ha.leases⟩
  order := h.order
  bound n hn := (h.bound n hn).trans ha.ids
  mine i hi hown := by
    have heq := ha.same i hi (.inr hown)
    rw [heq] at hown ⊢
    exact h.mine i hi hown
  there n t ht := by
    obtain ⟨hn, i, hi, hown, hid⟩ := h.there n t ht
    refine ⟨hn, i, hi, ?_⟩
    rw [ha.same i hi (.inl hown)]
    exact ⟨hown, hid⟩

theorem Aside.refl (g : Config) (b : Ns.App) (s : Ring) : Aside g b s s :=
  ⟨fun _ _ _ => rfl, le_rfl, le_rfl⟩

theorem aside_put {e : Job} (hjob : s'.job = (s.put i e).job) (hold : ¬ Owned b (s.job i))
    (hnew : ¬ Owned b e) (hid : s.nextId ≤ s'.nextId) (hlease : s.nextLease ≤ s'.nextLease) :
    Aside g b s s' := by
  refine ⟨fun j _ hown => ?_, hid, hlease⟩
  rw [hjob] at hown ⊢
  by_cases hji : j = i
  · rw [hji, Ring.put_self] at hown
    exact (hown.elim hold hnew).elim
  · rw [Ring.put_ne _ _ _ hji]

theorem owned_named {e : Job} {a : Ns.App} {queue : Bytes}
    (hname : e.name = (Ns.key (some a) queue).take QUEUE_NAME_MAX) (hown : Owned b e) : a = b := by
  have howns := hown.2
  rw [hname, take_take, Nat.min_self] at howns
  exact (Ns.owns_take_key a b queue (by decide)).1 howns

theorem aside_push {a : Ns.App} (hab : a ≠ b) (hs : s.Unspent) {payload : Bytes}
    (hfree : HasFree g s ∨ Refused g payload) (queue : Bytes) (delay : Nat) :
    Aside g b s ((push g (Ns.key (some a) queue) payload delay).run s).1 := by
  by_cases href : Refused g payload
  · rw [push_refused href]
    exact .refl g b s
  · obtain ⟨i, -, hi, hrun⟩ := push_run href (hfree.resolve_right href) (Ns.key (some a) queue)
      delay
    rw [hrun, hs.id]
    exact aside_put rfl (fun hown => hown.1 hi) (fun hown => hab (owned_named rfl hown))
      (le_succ _) le_rfl

/-- The job that a pop gets is of the application that pops. -/
theorem Tidy.popped (hs : Tidy g names s) (hinj : Set.InjOn g.hash names) {a : Ns.App}
    {queue : Bytes} (hmem : Ns.key (some a) queue ∈ names) (hi : i < g.slots) {now : Nat}
    (hw : (s.job i).waits (g.hash (Ns.key (some a) queue)) now) : Owned a (s.job i) := by
  obtain ⟨a', queue', hmem', hname, hqh⟩ := hs.named i hi hw.1
  have hkey := hinj hmem' hmem (hqh.symm.trans hw.2.1)
  have ha : a' = a := by
    by_contra hne
    exact Ns.key_ne hne queue' queue hkey
  subst ha
  refine ⟨hw.1, ?_⟩
  rw [hname, take_take, Nat.min_self]
  exact (Ns.owns_take_key a' a' queue' (by decide)).2 rfl

theorem Tidy.owned_unique (hs : Tidy g names s) {a : Ns.App} (hi : i < g.slots)
    (ha : Owned a (s.job i)) (hb : Owned b (s.job i)) : a = b := by
  obtain ⟨a', queue', -, hname, -⟩ := hs.named i hi ha.1
  exact (owned_named hname ha).symm.trans (owned_named hname hb)

theorem owned_congr {e e' : Job} (hid : e'.id = e.id) (hname : e'.name = e.name) :
    Owned b e' ↔ Owned b e := by
  rw [Owned, Owned, hid, hname]

theorem aside_pop (hs : Tidy g names s) (hleft : s.Unspent) (hinj : Set.InjOn g.hash names)
    {a : Ns.App} (hab : a ≠ b) {queue : Bytes} (hmem : Ns.key (some a) queue ∈ names)
    (visibility : Nat) :
    Aside g b s ((pop g (Ns.key (some a) queue) visibility).run s).1 := by
  rcases pop_run g (Ns.key (some a) queue) visibility s with
    ⟨lane, hrun, -⟩ | ⟨lane, i, hi, hw, -, hrun⟩
  · rw [hrun]
    exact ⟨fun _ _ _ => rfl, le_rfl, le_rfl⟩
  · rw [hrun, hleft.lease]
    have hno : ¬ Owned b (s.job i) := fun hown =>
      hab (hs.owned_unique hi (hs.popped hinj hmem hi hw) hown)
    exact aside_put rfl hno (fun hown => hno ((owned_congr rfl rfl).1 hown)) le_rfl (le_succ _)

theorem aside_presents (hs : Tidy g names s) {a : Ns.App} (hab : a ≠ b) {lease : Nat}
    {act : Job → Job} (hact : ∀ e, Owned b (act e) → Owned b e) {out : Ring × Bool}
    (h : Presents g (some a) lease act s out) : Aside g b s out.1 := by
  rcases h with ⟨rfl, -⟩ | ⟨i, hi, hne, -, -, howns, rfl⟩
  · exact .refl g b s
  · have hno : ¬ Owned b (s.job i) := fun hown => hab (hs.owned_unique hi ⟨hne, howns⟩ hown)
    exact aside_put rfl hno (fun hown => hno (hact _ hown)) le_rfl le_rfl

theorem aside_delete (hs : Tidy g names s) {a : Ns.App} (hab : a ≠ b) (lease : Nat) :
    Aside g b s ((delete g (some a) lease).run s).1 :=
  aside_presents hs hab (fun _ hown => absurd rfl hown.1) (hs.delete_run (some a) lease)

theorem aside_release (hs : Tidy g names s) {a : Ns.App} (hab : a ≠ b) (lease delay : Nat) :
    Aside g b s ((release g (some a) lease delay).run s).1 := by
  refine aside_presents hs hab (fun e hown => ?_) (hs.release_run (some a) lease delay)
  exact (owned_congr (e := e) rfl rfl).1 hown

/-! ## The application itself -/

theorem task_waits {e : Job} {qh now : Nat} (hid : e.id ≠ 0) :
    (e.task taken).waits qh now ↔ e.waits qh now := by
  simp only [Task.waits, Job.task, Job.waits, Job.ready, Bool.and_eq_true, Bool.or_eq_true,
    decide_eq_true_eq]
  exact (and_iff_right hid).symm

/-- One of the jobs of the application is changed, or gone, and more leases may have been taken. -/
theorem Shows.change (h : Shows g b s taken d idOf) (hs : Tidy g names s) (hi : i < g.slots)
    (hown : Owned b (s.job i)) {n : Nat} (hn : n < d.pushes) (hid : idOf n = (s.job i).id) {e : Job}
    {o : Option Task} {taken' : List Nat} (hjob : s'.job = (s.put i e).job)
    (hids : s.nextId = s'.nextId) (hnodup : taken'.Nodup)
    (hdrawn : ∀ l ∈ taken', l ≠ 0 ∧ l ≤ s'.nextLease)
    (hkept : ∀ l, l ≤ s.nextLease → taken'.idxOf? l = taken.idxOf? l)
    (he : (e.id = 0 ∧ o = none) ∨ (e.id = (s.job i).id ∧ e.name = (s.job i).name ∧
      o = some (e.task taken') ∧ (e.lease ≠ 0 → e.lease ∈ taken'))) {d' : Desk}
    (hjobs : d'.jobs = update d.jobs n o) (hpushes : d'.pushes = d.pushes)
    (hpops : d'.pops = taken'.length) : Shows g b s' taken' d' idOf := by
  obtain ⟨hself, hother⟩ := Ring.of_put hjob
  refine ⟨hpops.symm, hnodup, hdrawn, fun m n hmn hn => h.order m n hmn (hpushes ▸ hn),
    fun m hm => hids ▸ h.bound m (hpushes ▸ hm), fun j hj hown' => ?_, fun m t ht => ?_⟩
  all_goals rw [hpushes]
  · rw [hjobs]
    by_cases hji : j = i
    · subst hji
      rw [hself] at hown' ⊢
      rcases he with ⟨hzero, -⟩ | ⟨heid, -, rfl, hmem⟩
      · exact absurd hzero hown'.1
      · exact ⟨hmem, n, hn, hid.trans heid.symm, update_self ..⟩
    · rw [hother j hji] at hown' ⊢
      obtain ⟨hmem, m, hm, hmid, hmjob⟩ := h.mine j hj hown'
      have hidx := hkept _ (hs.bound j hj hown'.1).2
      have hmn : m ≠ n := by
        rintro rfl
        exact hji (hs.id_inj j hj i hi hown'.1 (hmid.symm.trans hid))
      refine ⟨fun hl => ?_, m, hm, hmid, ?_⟩
      · rw [mem_iff_idxOf?, hidx]
        exact mem_iff_idxOf?.1 (hmem hl)
      · rw [update_of_ne hmn, hmjob, Job.task, Job.task, hidx]
  · rw [hjobs] at ht
    by_cases hmn : m = n
    · subst hmn
      rw [update_self] at ht
      rcases he with ⟨-, rfl⟩ | ⟨heid, hname, -, -⟩
      · cases ht
      · refine ⟨hn, i, hi, ?_⟩
        rw [hself]
        exact ⟨(owned_congr heid hname).2 hown, heid.trans hid.symm⟩
    · rw [update_of_ne hmn] at ht
      obtain ⟨hm, j, hj, hown', hjid⟩ := h.there m t ht
      refine ⟨hm, j, hj, ?_⟩
      have hji : j ≠ i := by
        rintro rfl
        exact hmn (h.order_inj hm hn (hjid.symm.trans hid.symm))
      rw [hother j hji]
      exact ⟨hown', hjid⟩

/-- A job of the application is added, in a slot that was free. -/
theorem Shows.add (h : Shows g b s taken d idOf) (hi : i < g.slots) (hzero : (s.job i).id = 0)
    {e : Job} (hown : Owned b e) (hid : e.id = s.nextId + 1) (hlease : e.lease = 0)
    (hjob : s'.job = (s.put i e).job) (hids : s'.nextId = s.nextId + 1)
    (hleases : s'.nextLease = s.nextLease) {d' : Desk}
    (hjobs : d'.jobs = update d.jobs d.pushes (some (e.task taken)))
    (hpushes : d'.pushes = d.pushes + 1) (hpops : d'.pops = d.pops) :
    Shows g b s' taken d' (update idOf d.pushes (s.nextId + 1)) := by
  have hold : ∀ m, m < d.pushes → update idOf d.pushes (s.nextId + 1) m = idOf m :=
    fun m hm => update_of_ne (Nat.ne_of_lt hm) ..
  obtain ⟨hself, hother⟩ := Ring.of_put hjob
  refine ⟨h.pops.trans hpops.symm, h.nodup, hleases ▸ h.drawn, fun m n hmn hn => ?_,
    fun n hn => ?_, fun j hj hownj => ?_, fun n t ht => ?_⟩
  · rw [hpushes] at hn
    rw [hold m (by omega)]
    by_cases hnp : n = d.pushes
    · rw [hnp, update_self]
      exact lt_succ_of_le (h.bound m (hnp ▸ hmn))
    · rw [hold n (by omega)]
      exact h.order m n hmn (by omega)
  · rw [hpushes] at hn
    rw [hids]
    by_cases hnp : n = d.pushes
    · rw [hnp, update_self]
    · rw [hold n (by omega)]
      exact (h.bound n (by omega)).trans (le_succ _)
  · rw [hjobs, hpushes]
    by_cases hji : j = i
    · subst hji
      rw [hself]
      refine ⟨fun hl => absurd hlease hl, d.pushes, lt_succ_self _, ?_,
        update_self ..⟩
      rw [update_self, hid]
    · rw [hother j hji] at hownj ⊢
      obtain ⟨hmem, n, hn, hnid, hnjob⟩ := h.mine j hj hownj
      refine ⟨hmem, n, lt_succ_of_lt hn, by rw [hold n hn, hnid], ?_⟩
      rw [update_of_ne (Nat.ne_of_lt hn), hnjob]
  · rw [hjobs] at ht
    rw [hpushes]
    by_cases hnp : n = d.pushes
    · refine ⟨hnp ▸ lt_succ_self _, i, hi, ?_⟩
      rw [hself, hnp, update_self]
      exact ⟨hown, hid⟩
    · rw [update_of_ne hnp] at ht
      obtain ⟨hn, j, hj, hownj, hjid⟩ := h.there n t ht
      have hji : j ≠ i := by
        rintro rfl
        exact hownj.1 hzero
      refine ⟨lt_succ_of_lt hn, j, hj, ?_⟩
      rw [hother j hji, hold n hn]
      exact ⟨hownj, hjid⟩

theorem Shows.idxOf?_zero (h : Shows g b s taken d idOf) : taken.idxOf? 0 = none :=
  idxOf?_eq_none_iff.2 fun hmem => (h.drawn 0 hmem).1 rfl

/-- A push of the application. -/
theorem shows_push (h : Shows g b s taken d idOf) (hs : s.Unspent) {payload : Bytes}
    (hfree : HasFree g s ∨ Refused g payload) (queue : Bytes) (delay : Nat) :
    ∃ d' idOf', Shows g b ((push g (Ns.key (some b) queue) payload delay).run s).1 taken d' idOf' ∧
      Step g s.nowMs d (.push (Ns.key (some b) queue) payload delay)
        (.took (((push g (Ns.key (some b) queue) payload delay).run s).2 ≠ 0)) d' := by
  by_cases href : Refused g payload
  · rw [push_refused href]
    exact ⟨d, idOf, h, .refuses href⟩
  obtain ⟨i, hi, hzero, hrun⟩ := push_run href (hfree.resolve_right href) (Ns.key (some b) queue)
    delay
  rw [hrun, hs.id]
  generalize he : pushed (Ns.key (some b) queue) payload (g.hash (Ns.key (some b) queue))
    (s.nextId + 1) s.nowMs (later s.nowMs delay) = e
  have hown : Owned b e := by
    subst he
    refine ⟨succ_ne_zero _, ?_⟩
    rw [pushed, take_take, Nat.min_self]
    exact (Ns.owns_take_key b b queue (by decide)).2 rfl
  have htask : e.task taken =
      ⟨g.hash (Ns.key (some b) queue), later s.nowMs delay, 0, 0, payload, none⟩ := by
    subst he
    rw [Job.task, pushed, h.idxOf?_zero]
  refine ⟨_, update idOf d.pushes (s.nextId + 1), ?_, .takes href⟩
  refine h.add hi hzero hown (he ▸ rfl) (he ▸ rfl) ?_ ?_ ?_ ?_ ?_ ?_
  exacts [rfl, rfl, rfl, by rw [htask], rfl, rfl]

/-- A pop of the application. -/
theorem shows_pop (h : Shows g b s taken d idOf) (hs : Tidy g names s) (hleft : s.Unspent)
    (hinj : Set.InjOn g.hash names) {queue : Bytes} (hmem : Ns.key (some b) queue ∈ names)
    (visibility : Nat) : let out := (pop g (Ns.key (some b) queue) visibility).run s
    ∃ d', Shows g b out.1 (taken ++ (out.2.map Reserved.id).toList) d' idOf ∧
      Step g s.nowMs d (.pop (Ns.key (some b) queue) visibility)
        (.job (out.2.map fun r => (r.attempts, r.payload))) d' := by
  intro out
  rcases pop_run g (Ns.key (some b) queue) visibility s with
    ⟨lane, hrun, hno⟩ | ⟨lane, i, hi, hw, hfirst, hrun⟩
  · simp only [out, hrun, map_none, toList_none, append_nil]
    refine ⟨d, h.aside ⟨fun _ _ _ => rfl, le_rfl, le_rfl⟩, .idles fun n t ht hwait => ?_⟩
    obtain ⟨i, hi, hown, -, rfl⟩ := h.slot ht
    exact hno i hi ((task_waits hown.1).1 hwait)
  · rw [hleft.lease] at hrun
    have hown := hs.popped hinj hmem hi hw
    obtain ⟨-, n, hn, hid, hjob⟩ := h.mine i hi hown
    have hnew : ∀ l ∈ taken, l ≠ s.nextLease + 1 := fun l hl heq =>
      absurd (h.drawn l hl).2 (by omega)
    have hnodup : (taken ++ [s.nextLease + 1]).Nodup := by
      refine nodup_append.2 ⟨h.nodup, by simp, fun l hl x hx => ?_⟩
      rw [mem_singleton.1 hx]
      exact hnew l hl
    have hidx := idxOf?_append hnodup
    have htask : ((s.job i).task taken).reserve s.nowMs visibility d.pops =
        ((s.job i).reserve (s.nextLease + 1) s.nowMs visibility).task
          (taken ++ [s.nextLease + 1]) := by
      simp [Job.task, Job.reserve, Task.reserve, hidx, h.pops]
    simp only [out, hrun, map_some, toList_some]
    refine ⟨_, ?_, .gives ⟨hjob, (task_waits hown.1).2 hw, fun m u hu hwait => ?_⟩⟩
    · rw [htask]
      refine h.change hs hi hown hn hid
        (e := (s.job i).reserve (s.nextLease + 1) s.nowMs visibility) ?_ ?_ hnodup ?_
        (fun l hl => ?_) (.inr ⟨rfl, rfl, rfl, fun _ => ?_⟩) ?_ ?_ ?_
      any_goals rfl
      · intro l hl
        rcases mem_append.1 hl with hl | hl
        · exact ⟨(h.drawn l hl).1, (h.drawn l hl).2.trans (le_succ _)⟩
        · rw [mem_singleton.1 hl]
          exact ⟨succ_ne_zero _, le_rfl⟩
      · rw [hidx, if_neg (by omega)]
      · exact mem_append_right _ (mem_singleton.2 rfl)
      · simp [h.pops]
    · obtain ⟨j, hj, hownj, hjid, rfl⟩ := h.slot hu
      refine (hfirst j hj ((task_waits hownj.1).1 hwait)).imp id fun hle => ⟨hle.1, ?_⟩
      by_contra hlt
      have := h.order m n (Nat.not_le.1 hlt) hn
      omega

/-- The application presents a lease. -/
theorem shows_presents (h : Shows g b s taken d idOf) {lease : Nat} {act : Job → Job}
    {out : Ring × Bool} (hout : Presents g (some b) lease act s out) :
    (out = (s, false) ∧ ∀ n t, d.jobs n = some t → taken.idxOf? lease ≠ none →
      t.ticket ≠ taken.idxOf? lease) ∨
    ∃ i k n, i < g.slots ∧ Owned b (s.job i) ∧ taken.idxOf? lease = some k ∧ n < d.pushes ∧
      idOf n = (s.job i).id ∧ d.jobs n = some ((s.job i).task taken) ∧
      ((s.job i).task taken).ticket = some k ∧ out = (s.put i (act (s.job i)), true) := by
  rcases hout with ⟨rfl, hno⟩ | ⟨i, hi, hne, hl, rfl, howns, rfl⟩
  · refine .inl ⟨rfl, fun n t ht hsome heq => ?_⟩
    obtain ⟨i, hi, hown, -, rfl⟩ := h.slot ht
    obtain ⟨k, hk⟩ := ne_none_iff_exists'.1 hsome
    have hlease : (s.job i).lease = lease := idxOf?_inj h.nodup (heq.trans hk) hk
    have hfalse := hno i hi hown.1 (h.drawn _ (mem_iff_idxOf?.2 ⟨k, hk⟩)).1 hlease
    rw [hown.2] at hfalse
    cases hfalse
  · have hown : Owned b (s.job i) := ⟨hne, howns⟩
    obtain ⟨hmem, n, hn, hid, hjob⟩ := h.mine i hi hown
    obtain ⟨k, hk⟩ := mem_iff_idxOf?.1 (hmem hl)
    exact .inr ⟨i, k, n, hi, hown, hk, hn, hid, hjob, hk, rfl⟩

theorem shows_delete (h : Shows g b s taken d idOf) (hs : Tidy g names s) (lease : Nat) :
    ∃ d', Shows g b ((delete g (some b) lease).run s).1 taken d' idOf ∧
      Step g s.nowMs d (.delete (taken.idxOf? lease))
        (.flag ((delete g (some b) lease).run s).2) d' := by
  rcases shows_presents h (hs.delete_run (some b) lease) with
    ⟨hout, hno⟩ | ⟨i, k, n, hi, hown, hk, hn, hid, hjob, hticket, hout⟩
  · rw [hout]
    exact ⟨d, h, .keeps hno⟩
  · rw [hout, hk]
    refine ⟨_, ?_, .drops hjob hticket⟩
    exact h.change hs hi hown hn hid rfl rfl h.nodup h.drawn (fun _ _ => rfl) (.inl ⟨rfl, rfl⟩) rfl
      rfl h.pops.symm

theorem shows_release (h : Shows g b s taken d idOf) (hs : Tidy g names s) (lease delay : Nat) :
    ∃ d', Shows g b ((release g (some b) lease delay).run s).1 taken d' idOf ∧
      Step g s.nowMs d (.release (taken.idxOf? lease) delay)
        (.flag ((release g (some b) lease delay).run s).2) d' := by
  rcases shows_presents h (hs.release_run (some b) lease delay) with
    ⟨hout, hno⟩ | ⟨i, k, n, hi, hown, hk, hn, hid, hjob, hticket, hout⟩
  · rw [hout]
    exact ⟨d, h, .holds hno⟩
  · rw [hout, hk]
    have htask : ((s.job i).task taken).giveBack (later s.nowMs delay) =
        ((s.job i).giveBack (later s.nowMs delay)).task taken := by
      simp [Job.task, Job.giveBack, Task.giveBack, h.idxOf?_zero]
    refine ⟨_, ?_, .returns hjob hticket⟩
    rw [htask]
    exact h.change hs hi hown hn hid (e := (s.job i).giveBack (later s.nowMs delay)) rfl rfl h.nodup
      h.drawn (fun _ _ => rfl) (.inr ⟨rfl, rfl, rfl, fun hl => absurd rfl hl⟩) rfl rfl h.pops.symm

end

end Askr.Queue
