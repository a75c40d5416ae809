import Askr.Queue.Desk
import Askr.Sql.Jobs
import Mathlib.Data.Finset.Prod

/-!
# One queue, two backends

An application that has no `app_id` makes the same calls of the ring in shared memory and of the
table `askr_jobs`, and hands each of them the tokens that it got from it. It sees a desk of both
(`Queue.Shows`, `Keeps`), so a call that is a step of the desk on both sides has the same answer on
both.

One call is not. A job that is given back keeps its number of attempts in the table, so the token it
was given back under is still good there, while the ring has cleared its lease
(`Jobs.Table.spent`).
-/

namespace Askr.Sql

open Conc Queue Bytes Sqlite Function List Option Nat Prog

/-! ## The calls -/

def Jobs.call (env : Env) (current : Option Ns.App) (now : Nat) (req : Queue.Req)
    (t : Jobs.Table) : Jobs.Table × Queue.Res :=
  match req with
  | .push queue payload delay => (Jobs.push env current now queue payload delay t).map id .id
  | .pop queue visibility => (Jobs.pop env current now queue visibility t).map id .job
  | .delete token => (Jobs.delete token t).map id .flag
  | .release token delay => (Jobs.release now token delay t).map id .flag

/-- The token that is presented, and `0` for one that no pop returned. -/
def presented (taken : List Nat) (ticket : Option Nat) : Nat :=
  (ticket.bind fun k => taken[k]?).getD 0

/-- What is asked, with the tokens that a backend has returned. -/
def request (taken : List Nat) : Ask → Req
  | .push queue payload delay => .push queue payload delay
  | .pop queue visibility => .pop queue visibility
  | .delete ticket => .delete (presented taken ticket)
  | .release ticket delay => .release (presented taken ticket) delay

/-- What the application sees of a result. -/
def seen : Res → Answer
  | .id n => .took (n ≠ 0)
  | .job r => .job (r.map fun r => (r.attempts, r.payload))
  | .flag b => .flag b

/-- The tokens it has got. -/
def received (taken : List Nat) : Res → List Nat
  | .job r => taken ++ (r.map Reserved.id).toList
  | _ => taken

/-- A backend, and the tokens it has returned. -/
structure Side (σ : Type) where
  state : σ
  taken : List Nat

def Side.ask {σ : Type} (call : Req → σ → σ × Res) (s : Side σ) (q : Ask) : Side σ × Answer :=
  let out := call (request s.taken q) s.state
  (⟨out.1, received s.taken out.2⟩, seen out.2)

/-- The two backends, and the clock in seconds. -/
structure Backends where
  shm : Side Ring
  sql : Side Jobs.Table
  now : Nat

def Backends.init (now : Nat) : Backends := ⟨⟨.init (now * 1000), []⟩, ⟨.empty, []⟩, now⟩

namespace Backends

def wait (s : Backends) (secs : Nat) : Backends :=
  { s with shm := ⟨Queue.tick (secs * 1000) s.shm.state, s.shm.taken⟩, now := s.now + secs }

section
variable (g : Config) (env : Env) (b : Ns.App)

def askShm (s : Backends) (q : Ask) : Side Ring × Answer :=
  s.shm.ask (fun req ring => (Queue.code g ⟨some b, req⟩).run ring) q

def askSql (s : Backends) (q : Ask) : Side Jobs.Table × Answer :=
  s.sql.ask (Jobs.call env (some b) s.now) q

/-- **A call of both**, some seconds after the one before it. -/
def step (s : Backends) (e : Nat × Ask) : Backends :=
  { s.wait e.1 with
    shm := ((s.wait e.1).askShm g b e.2).1, sql := ((s.wait e.1).askSql env b e.2).1 }

/-- The two answer the same. -/
def Agrees (s : Backends) (e : Nat × Ask) : Prop :=
  ((s.wait e.1).askShm g b e.2).2 = ((s.wait e.1).askSql env b e.2).2

/-- What the call may ask for: a name in UTF-8, numbers that PHP has, a payload that both take and,
for a push, a free slot in the ring. -/
def Fits (s : Backends) : Ask → Prop
  | .push queue payload delay => isUtf8 queue = true ∧ delay < 9223372036854775808 ∧
      payload.length ≤ PAYLOAD_MAX ∧ env.takes queue (.blob payload) = true ∧
      HasFree g s.shm.state
  | .pop queue visibility => isUtf8 queue = true ∧ visibility < 9223372036854775808
  | .delete _ => True
  | .release _ delay => delay < 9223372036854775808

/-- The number of attempts that the answer tells. -/
def attempts : Answer → Nat
  | .job (some (n, _)) => n
  | _ => 0

/-- The call fits, the clock is a number of milliseconds in 64 bits, no job is attempted 65536
times, and the ids of the table have 48 bits. -/
def Usable (s : Backends) (e : Nat × Ask) : Prop :=
  (s.wait e.1).Fits g env e.2 ∧ (s.now + e.1) * 1000 < U64 ∧
    attempts ((s.wait e.1).askSql env b e.2).2 < 65536 ∧ s.sql.state.seq < 281474976710655

end

end Backends

/-- The token of a job that has been given back under it, and that nobody has claimed since. -/
def Jobs.Table.spent (t : Jobs.Table) (token : Nat) : Bool :=
  (t.rows (Jobs.leaseParts token).1).any fun j =>
    j.attempts % 65536 = (Jobs.leaseParts token).2 && j.reservedUntil.isNone

/-- The call presents the token of a job that has been given back under it. -/
def Backends.PresentsSpent (s : Backends) (e : Nat × Ask) : Prop :=
  match e.2 with
  | .delete ticket => s.sql.state.spent (presented s.sql.taken ticket) = true
  | .release ticket _ => s.sql.state.spent (presented s.sql.taken ticket) = true
  | _ => False

def askQueue? : Ask → Option Bytes
  | .push queue _ _ => some queue
  | .pop queue _ => some queue
  | _ => none

/-- The names that the calls have in the ring. -/
def askNames (b : Ns.App) (ops : List (Nat × Ask)) : Set Bytes :=
  { n | ∃ queue, n = Ns.key (some b) queue ∧ queue ∈ ops.filterMap fun e => askQueue? e.2 }

/-! ## Seconds and milliseconds -/

/-- A time of the table as the ring has it. -/
def millis (a : Nat) : Nat := min (a * 1000) (U64 - 1)

theorem later_millis (now secs : Nat) : later (now * 1000) secs = millis (now + secs) := by
  simp only [later, satAdd, satMul, millis, U64]
  omega

theorem millis_le {a now : Nat} (h : now * 1000 < U64) : millis a ≤ now * 1000 ↔ a ≤ now := by
  simp only [millis, U64] at h ⊢
  omega

theorem millis_of_le {a now : Nat} (h : now * 1000 < U64) (ha : a ≤ now) : millis a = a * 1000 := by
  simp only [millis, U64] at h ⊢
  omega

/-! ## The table keeps a desk -/

/-- The row of the push number `n` is the job of the desk. The job is out under a pop as long as the
row is reserved. -/
structure Like (g : Config) (b : Ns.App) (names : Set Bytes) (tokens : List Nat) (n : Nat)
    (task : Task) (j : Jobs.Job) : Prop where
  name : Ns.key (some b) j.queue ∈ names
  hash : task.queueHash = g.hash (Ns.key (some b) j.queue)
  payload : task.payload = j.payload
  short : j.payload.length ≤ PAYLOAD_MAX
  priority : j.priority = 0
  attempts : task.attempts = j.attempts
  few : j.attempts < 65536
  available : ∃ a : Nat, j.availableAt = a ∧ task.availableAt = millis a
  free : j.reservedUntil = none → task.reservedUntil = 0 ∧ task.ticket = none
  reserved : ∀ u, j.reservedUntil = some u → (∃ a : Nat, u = a ∧ task.reservedUntil = millis a) ∧
    Jobs.leaseToken (n + 1) j.attempts ∈ tokens ∧
    task.ticket = tokens.idxOf? (Jobs.leaseToken (n + 1) j.attempts)

/-- **The table keeps the desk**: the row of each push is its job, and every token that was returned
names a push and an attempt that was made. -/
structure Keeps (g : Config) (b : Ns.App) (names : Set Bytes) (d : Desk) (t : Jobs.Table)
    (tokens : List Nat) : Prop where
  seq : t.seq = d.pushes
  pops : tokens.length = d.pops
  nodup : tokens.Nodup
  zero : t.rows 0 = none
  rows : ∀ n, (d.jobs n = none ∧ t.rows (n + 1) = none) ∨
    ∃ task j, d.jobs n = some task ∧ t.rows (n + 1) = some j ∧ Like g b names tokens n task j
  given : ∀ token ∈ tokens, ∃ n a, token = Jobs.leaseToken (n + 1) a ∧ n < d.pushes ∧ a ≠ 0 ∧
    a < 65536 ∧ ∀ j, t.rows (n + 1) = some j → a ≤ j.attempts

section
variable {g : Config} {env : Env} {b : Ns.App} {names : Set Bytes} {d : Desk} {t : Jobs.Table}
  {tokens : List Nat} {n now : Nat} {task : Task} {j : Jobs.Job} {queue : Bytes}

theorem keeps_init (g : Config) (b : Ns.App) (names : Set Bytes) :
    Keeps g b names .empty .empty [] where
  seq := rfl
  pops := rfl
  nodup := nodup_nil
  zero := rfl
  rows _ := .inl ⟨rfl, rfl⟩
  given token h := by cases h

/-- There are at most as many tokens as pushes and attempts to name. -/
theorem Keeps.pops_le (h : Keeps g b names d t tokens) : d.pops ≤ d.pushes * 65536 := by
  have hsub : tokens.toFinset ⊆ (Finset.range d.pushes ×ˢ Finset.range 65536).image
      fun x => Jobs.leaseToken (x.1 + 1) x.2 := by
    intro token htoken
    obtain ⟨n, a, rfl, hn, -, ha, -⟩ := h.given token (mem_toFinset.1 htoken)
    exact Finset.mem_image.2 ⟨(n, a), by simp [hn, ha], rfl⟩
  have hle := (Finset.card_le_card hsub).trans Finset.card_image_le
  rwa [toFinset_card_of_nodup h.nodup, h.pops, Finset.card_product, Finset.card_range,
    Finset.card_range] at hle

theorem Keeps.row (h : Keeps g b names d t tokens) (hrow : t.rows (n + 1) = some j) :
    ∃ task, d.jobs n = some task ∧ Like g b names tokens n task j := by
  rcases h.rows n with ⟨-, hnone⟩ | ⟨task, j', htask, hrow', hlike⟩
  · rw [hnone] at hrow
    cases hrow
  · rw [hrow', Option.some.injEq] at hrow
    exact ⟨task, htask, hrow ▸ hlike⟩

theorem Keeps.job (h : Keeps g b names d t tokens) (htask : d.jobs n = some task) :
    ∃ j, t.rows (n + 1) = some j ∧ Like g b names tokens n task j := by
  rcases h.rows n with ⟨hnone, -⟩ | ⟨task', j, htask', hrow, hlike⟩
  · rw [hnone] at htask
    cases htask
  · rw [htask', Option.some.injEq] at htask
    exact ⟨j, hrow, htask ▸ hlike⟩

theorem Keeps.pos (h : Keeps g b names d t tokens) {i : Nat} (hrow : t.rows i = some j) :
    ∃ n, i = n + 1 := by
  cases i with
  | zero =>
    rw [h.zero] at hrow
    cases hrow
  | succ n => exact ⟨n, rfl⟩

theorem Keeps.lt_pushes (h : Keeps g b names d t tokens) (hrow : t.rows (n + 1) = some j) :
    n < d.pushes := by
  have hle := t.le_seq hrow
  rw [h.seq] at hle
  omega

theorem Like.waits_iff (h : Like g b names tokens n task j) (hinj : Set.InjOn g.hash names)
    (hname : Ns.key (some b) queue ∈ names) (hnow : now * 1000 < U64) :
    task.waits (g.hash (Ns.key (some b) queue)) (now * 1000) ↔ j.ready queue now = true := by
  have hqueue : task.queueHash = g.hash (Ns.key (some b) queue) ↔ j.queue = queue := by
    rw [h.hash]
    refine ⟨fun heq => Ns.key_injective _ (hinj h.name hname heq), fun heq => by rw [heq]⟩
  have hdue : task.availableAt ≤ now * 1000 ↔ j.availableAt ≤ now := by
    obtain ⟨a, ha, hta⟩ := h.available
    rw [ha, hta, millis_le hnow, Int.ofNat_le]
  have hfree : (task.reservedUntil = 0 ∨ task.reservedUntil ≤ now * 1000) ↔
      j.unreserved now = true := by
    rw [Jobs.Job.unreserved]
    cases hr : j.reservedUntil with
    | none => simp [(h.free hr).1]
    | some u =>
      obtain ⟨⟨a, rfl, hta⟩, -⟩ := h.reserved u hr
      rw [hta]
      simp only [decide_eq_true_eq, Int.ofNat_le, ← millis_le hnow]
      omega
  rw [Task.waits, hqueue, hdue, hfree, Jobs.Job.ready, Jobs.Job.due]
  simp only [Bool.and_eq_true, decide_eq_true_eq, and_assoc]

theorem Keeps.first (h : Keeps g b names d t tokens) (hinj : Set.InjOn g.hash names)
    (hname : Ns.key (some b) queue ∈ names) (hnow : now * 1000 < U64)
    (hfirst : t.first (·.ready queue now) = some (n + 1, j)) (htask : d.jobs n = some task)
    (hlike : Like g b names tokens n task j) :
    d.First (g.hash (Ns.key (some b) queue)) (now * 1000) n task := by
  obtain ⟨-, hready, hrank⟩ := Jobs.first_eq_some.1 hfirst
  have hwaits := (hlike.waits_iff hinj hname hnow).2 hready
  refine ⟨htask, hwaits, fun m task' htask' hwaits' => ?_⟩
  obtain ⟨j', hrow', hlike'⟩ := h.job htask'
  have hready' := (hlike'.waits_iff hinj hname hnow).1 hwaits'
  have hle := Jobs.Job.rank_le.1 (hrank (m + 1) j' hrow' hready')
  obtain ⟨a, ha, hta⟩ := hlike.available
  obtain ⟨a', ha', hta'⟩ := hlike'.available
  have hdue : a ≤ now := (millis_le hnow).1 (hta ▸ hwaits.2.1)
  have hdue' : a' ≤ now := (millis_le hnow).1 (hta' ▸ hwaits'.2.1)
  rw [hlike.priority, hlike'.priority, ha, ha'] at hle
  rw [hta, hta', millis_of_le hnow hdue, millis_of_le hnow hdue']
  omega

theorem Keeps.first_none (h : Keeps g b names d t tokens) (hinj : Set.InjOn g.hash names)
    (hname : Ns.key (some b) queue ∈ names) (hnow : now * 1000 < U64)
    (hfirst : t.first (·.ready queue now) = none) : ∀ n task, d.jobs n = some task →
      ¬ task.waits (g.hash (Ns.key (some b) queue)) (now * 1000) := by
  intro n task htask hwaits
  obtain ⟨j, hrow, hlike⟩ := h.job htask
  have hready := (hlike.waits_iff hinj hname hnow).1 hwaits
  rw [Jobs.first_eq_none.1 hfirst (n + 1) j hrow] at hready
  cases hready

theorem Like.mono (h : Like g b names tokens n task j) {tokens' : List Nat}
    (hkept : ∀ k ∈ tokens, k ∈ tokens' ∧ tokens'.idxOf? k = tokens.idxOf? k) :
    Like g b names tokens' n task j :=
  { h with
    reserved := fun u hu => by
      obtain ⟨htime, hmem, hticket⟩ := h.reserved u hu
      exact ⟨htime, (hkept _ hmem).1, hticket.trans (hkept _ hmem).2.symm⟩ }

/-- The job of a push is changed, or gone, and more tokens may have been returned. -/
theorem Keeps.change (h : Keeps g b names d t tokens) {o : Option Task}
    {f : Jobs.Job → Option Jobs.Job} {d' : Desk} {tokens' : List Nat}
    (hrow : t.rows (n + 1) = some j)
    (ho : (o = none ∧ f j = none) ∨ ∃ task j', o = some task ∧ f j = some j' ∧
      j.attempts ≤ j'.attempts ∧ Like g b names tokens' n task j')
    (hjobs : d'.jobs = update d.jobs n o) (hpushes : d'.pushes = d.pushes)
    (hpops : tokens'.length = d'.pops) (hnodup : tokens'.Nodup)
    (hkept : ∀ k ∈ tokens, k ∈ tokens' ∧ tokens'.idxOf? k = tokens.idxOf? k)
    (hnew : ∀ k ∈ tokens', k ∈ tokens ∨ ∃ a, k = Jobs.leaseToken (n + 1) a ∧ a ≠ 0 ∧ a < 65536 ∧
      ∀ j', f j = some j' → a ≤ j'.attempts) : Keeps g b names d' (t.alter (n + 1) f) tokens' := by
  have hself : (t.alter (n + 1) f).rows (n + 1) = f j := by
    rw [Jobs.rows_alter_self, hrow, bind_some]
  have hother : ∀ m, m ≠ n → (t.alter (n + 1) f).rows (m + 1) = t.rows (m + 1) := fun m hm =>
    Jobs.rows_alter_of_ne (by omega) f
  refine ⟨h.seq.trans hpushes.symm, hpops, hnodup, ?_, fun m => ?_, fun token htoken => ?_⟩
  · rw [Jobs.rows_alter_of_ne (succ_ne_zero n).symm, h.zero]
  · rw [hjobs]
    by_cases hmn : m = n
    · subst hmn
      rw [update_self, hself]
      rcases ho with ho | ⟨task, j', ho, hf, -, hlike⟩
      · exact .inl ho
      · exact .inr ⟨task, j', ho, hf, hlike⟩
    · rw [update_of_ne hmn, hother m hmn]
      refine (h.rows m).imp id ?_
      rintro ⟨task, j', htask, hrow', hlike⟩
      exact ⟨task, j', htask, hrow', hlike.mono hkept⟩
  · rcases hnew token htoken with hold | ⟨a, heq, hpos, hlt, ha⟩
    · obtain ⟨m, a, heq, hm, hpos, hlt, ha⟩ := h.given token hold
      refine ⟨m, a, heq, hpushes ▸ hm, hpos, hlt, fun j' hrow' => ?_⟩
      by_cases hmn : m = n
      · subst hmn
        rw [hself] at hrow'
        rcases ho with ⟨-, hf⟩ | ⟨task, j'', -, hf, hle, -⟩
        · rw [hf] at hrow'
          cases hrow'
        · rw [hf, Option.some.injEq] at hrow'
          exact hrow' ▸ (ha j hrow).trans hle
      · rw [hother m hmn] at hrow'
        exact ha j' hrow'
    · refine ⟨n, a, heq, hpushes ▸ h.lt_pushes hrow, hpos, hlt, fun j' hrow' => ?_⟩
      rw [hself] at hrow'
      exact ha j' hrow'

/-! ## One call of the table -/

theorem Keeps.push (h : Keeps g b names d t tokens) (hname : Ns.key (some b) queue ∈ names)
    {payload : Bytes} (hlen : payload.length ≤ PAYLOAD_MAX) {delay : Nat}
    (hdelay : delay < 9223372036854775808) (now : Nat) : Keeps g b names { d with
        jobs := update d.jobs d.pushes
          (some ⟨g.hash (Ns.key (some b) queue), later (now * 1000) delay, 0, 0, payload, none⟩)
        pushes := d.pushes + 1 }
      (t.insert ⟨queue, payload, 0, now + asI64 delay, none, 0, now⟩) tokens := by
  have hother : ∀ m, m ≠ d.pushes → (t.insert ⟨queue, payload, 0, now + asI64 delay, none, 0,
      now⟩).rows (m + 1) = t.rows (m + 1) := fun m hm =>
    Jobs.rows_insert_of_ne (by rw [h.seq]; omega) _
  refine ⟨congrArg (· + 1) h.seq, h.pops, h.nodup, ?_, fun m => ?_, fun token htoken => ?_⟩
  · rw [Jobs.rows_insert_of_ne (succ_ne_zero _).symm, h.zero]
  · by_cases hm : m = d.pushes
    · subst hm
      refine .inr ⟨_, _, update_self .., h.seq ▸ Jobs.rows_insert_self _, ?_⟩
      refine ⟨hname, rfl, rfl, hlen, rfl, rfl, zero_lt_succ _,
        ⟨now + delay, ?_, later_millis now delay⟩, fun _ => ⟨rfl, rfl⟩, fun u hu => by cases hu⟩
      rw [asI64_of_lt hdelay, Int.natCast_add]
    · simp only [update_of_ne hm]
      rw [hother m hm]
      exact h.rows m
  · obtain ⟨m, a, heq, hm, hpos, hlt, ha⟩ := h.given token htoken
    refine ⟨m, a, heq, lt_succ_of_lt hm, hpos, hlt, fun j hrow => ?_⟩
    rw [hother m (Nat.ne_of_lt hm)] at hrow
    exact ha j hrow

theorem leaseToken_inj {n m a c : Nat} (hn : n < 281474976710656) (hm : m < 281474976710656)
    (ha : a < 65536) (hc : c < 65536) (heq : Jobs.leaseToken n a = Jobs.leaseToken m c) :
    n = m ∧ a = c := by
  have hparts := congrArg Jobs.leaseParts heq
  rw [Jobs.leaseParts_leaseToken hn, Jobs.leaseParts_leaseToken hm, mod_eq_of_lt ha,
    mod_eq_of_lt hc] at hparts
  exact Prod.mk.inj hparts

theorem Keeps.token_new (h : Keeps g b names d t tokens) (hseq : d.pushes < 281474976710655)
    (hrow : t.rows (n + 1) = some j) (hfew : j.attempts + 1 < 65536) :
    Jobs.leaseToken (n + 1) (j.attempts + 1) ∉ tokens := by
  intro hmem
  obtain ⟨m, a, heq, hm, -, hlt, ha⟩ := h.given _ hmem
  have hn := h.lt_pushes hrow
  obtain ⟨hnm, rfl⟩ := leaseToken_inj (by omega) (by omega) hfew hlt heq
  obtain rfl := Nat.succ.inj hnm
  have := ha j hrow
  omega

theorem Keeps.claim (h : Keeps g b names d t tokens) (hseq : d.pushes < 281474976710655)
    (hrow : t.rows (n + 1) = some j) (hlike : Like g b names tokens n task j)
    (hfew : j.attempts + 1 < 65536) {visibility : Nat} (hvis : visibility < 9223372036854775808)
    (now : Nat) : Keeps g b names { d with
        jobs := update d.jobs n (some (task.reserve (now * 1000) visibility d.pops))
        pops := d.pops + 1 }
      (t.alter (n + 1) fun j => some (j.claim now visibility))
      (tokens ++ [Jobs.leaseToken (n + 1) (j.attempts + 1)]) := by
  have hnew := h.token_new hseq hrow hfew
  have hnodup : (tokens ++ [Jobs.leaseToken (n + 1) (j.attempts + 1)]).Nodup :=
    nodup_append.2 ⟨h.nodup, by simp, fun k hk k' hk' heq => by
      rw [mem_singleton.1 hk'] at heq
      exact hnew (heq ▸ hk)⟩
  have hidx := idxOf?_append hnodup
  refine h.change (j := j) hrow (.inr ⟨_, j.claim now visibility, rfl, rfl, le_succ _, ?_⟩) rfl
    rfl ?_ hnodup ?_ ?_
  · refine ⟨hlike.name, hlike.hash, hlike.payload, hlike.short, hlike.priority, ?_, hfew,
      hlike.available, (fun hu => by cases hu), fun u hu => ?_⟩
    · rw [Task.reserve, hlike.attempts]
      exact mod_eq_of_lt (hfew.trans (by decide))
    · cases hu
      refine ⟨⟨now + visibility, ?_, later_millis now visibility⟩,
        mem_append_right _ (mem_singleton.2 rfl), ?_⟩
      · rw [asI64_of_lt hvis, Int.natCast_add]
      · exact ((hidx _).trans (if_pos rfl)).symm ▸ congrArg some h.pops.symm
  · rw [length_append, h.pops, length_singleton]
  · refine fun k hk => ⟨mem_append_left _ hk, ?_⟩
    rw [hidx, if_neg]
    exact fun heq => hnew (heq ▸ hk)
  · intro k hk
    refine (mem_append.1 hk).imp id fun hk => ?_
    refine ⟨j.attempts + 1, mem_singleton.1 hk, succ_ne_zero _, hfew, fun j' hj' => ?_⟩
    cases hj'
    exact le_rfl

theorem Keeps.has_zero (h : Keeps g b names d t tokens) : t.has 0 = false := by
  rw [Jobs.Table.has]
  simp [Jobs.leaseParts, h.zero]

theorem presented_cases (taken : List Nat) (ticket : Option Nat) :
    (ticket.filter (· < taken.length) = none ∧ presented taken ticket = 0) ∨
    ∃ k, ticket.filter (· < taken.length) = some k ∧ taken[k]? = some (presented taken ticket) := by
  cases ticket with
  | none => exact .inl ⟨rfl, rfl⟩
  | some k =>
    by_cases hk : k < taken.length
    · refine .inr ⟨k, by simpa using hk, ?_⟩
      rw [presented, bind_some, getElem?_eq_getElem hk, getD_some]
    · refine .inl ⟨by simpa using hk, ?_⟩
      rw [presented, bind_some, getElem?_eq_none (Nat.not_lt.1 hk), getD_none]

/-- **What comes of a token that is presented**: it is good in neither the table nor the desk, in
both, or, if it is spent, in the table alone. -/
inductive Presented (g : Config) (b : Ns.App) (names : Set Bytes) (d : Desk) (t : Jobs.Table)
    (tokens : List Nat) (token : Nat) : Option Nat → Prop where
  | unknown {k : Option Nat} : t.has token = false → t.spent token = false →
      (∀ m task, d.jobs m = some task → k ≠ none → task.ticket ≠ k) →
      Presented g b names d t tokens token k
  | good {k n : Nat} {task : Task} {j : Jobs.Job} : t.has token = true → t.spent token = false →
      (Jobs.leaseParts token).1 = n + 1 → d.jobs n = some task → task.ticket = some k →
      t.rows (n + 1) = some j → Like g b names tokens n task j →
      Presented g b names d t tokens token (some k)
  | spent {k : Nat} : t.has token = true → t.spent token = true →
      (∀ m task, d.jobs m = some task → task.ticket ≠ some k) →
      Presented g b names d t tokens token (some k)

theorem Keeps.ticket (h : Keeps g b names d t tokens) {k : Nat} (htask : d.jobs n = some task)
    (hk : task.ticket = some k) :
    ∃ j u, t.rows (n + 1) = some j ∧ j.reservedUntil = some u ∧ j.attempts < 65536 ∧
      tokens[k]? = some (Jobs.leaseToken (n + 1) j.attempts) := by
  obtain ⟨j, hrow, hlike⟩ := h.job htask
  cases hr : j.reservedUntil with
  | none =>
    rw [(hlike.free hr).2] at hk
    cases hk
  | some u =>
    obtain ⟨-, -, hticket⟩ := hlike.reserved u hr
    exact ⟨j, u, hrow, hr, hlike.few, (idxOf?_eq_some h.nodup).1 (hticket.symm.trans hk)⟩

theorem Keeps.presents (h : Keeps g b names d t tokens) (hseq : d.pushes < 281474976710655)
    (ticket : Option Nat) :
    Presented g b names d t tokens (presented tokens ticket) (ticket.filter (· < d.pops)) := by
  rw [← h.pops]
  rcases presented_cases tokens ticket with ⟨hnone, hzero⟩ | ⟨k, hk, htoken⟩
  · rw [hnone, hzero]
    refine .unknown h.has_zero ?_ fun m task _ hne => absurd rfl hne
    rw [Jobs.Table.spent]
    simp [Jobs.leaseParts, h.zero]
  rw [hk]
  generalize presented tokens ticket = token at htoken ⊢
  obtain ⟨n, a, rfl, hn, -, hlt, -⟩ := h.given token (mem_of_getElem? htoken)
  have hid : n + 1 < 281474976710656 := by omega
  have hparts := Jobs.leaseParts_leaseToken hid a
  rw [mod_eq_of_lt hlt] at hparts
  have hout : ∀ m task, d.jobs m = some task → task.ticket = some k →
      m = n ∧ ∃ j u, t.rows (n + 1) = some j ∧ j.reservedUntil = some u ∧ j.attempts = a := by
    intro m task htask hticket
    obtain ⟨j, u, hrow, hr, hfew, hget⟩ := h.ticket htask hticket
    rw [htoken, Option.some.injEq] at hget
    have hm := h.lt_pushes hrow
    obtain ⟨hnm, ha⟩ := leaseToken_inj hid (by omega) hlt hfew hget
    obtain rfl := Nat.succ.inj hnm
    exact ⟨rfl, j, u, hrow, hr, ha.symm⟩
  cases hrow : t.rows (n + 1) with
  | none =>
    refine .unknown ?_ ?_ fun m task htask _ hticket => ?_
    · rw [Jobs.Table.has, hparts, hrow, any_none]
    · rw [Jobs.Table.spent, hparts, hrow, any_none]
    · obtain ⟨-, j, u, hrow', -⟩ := hout m task htask hticket
      rw [hrow] at hrow'
      cases hrow'
  | some j =>
    obtain ⟨task, htask, hlike⟩ := h.row hrow
    have hhas : t.has (Jobs.leaseToken (n + 1) a) = decide (j.attempts = a) := by
      rw [Jobs.Table.has, hparts, hrow, any_some, mod_eq_of_lt hlike.few]
    have hspent : t.spent (Jobs.leaseToken (n + 1) a) =
        (decide (j.attempts = a) && j.reservedUntil.isNone) := by
      rw [Jobs.Table.spent, hparts, hrow, any_some, mod_eq_of_lt hlike.few]
    by_cases ha : j.attempts = a
    · rw [decide_eq_true ha] at hhas hspent
      cases hr : j.reservedUntil with
      | none =>
        rw [hr] at hspent
        refine .spent hhas hspent fun m task' htask' hticket => ?_
        obtain ⟨-, j', u, hrow', hr', -⟩ := hout m task' htask' hticket
        rw [hrow, Option.some.injEq] at hrow'
        rw [← hrow', hr] at hr'
        cases hr'
      | some u =>
        rw [hr] at hspent
        refine .good hhas hspent (congrArg Prod.fst hparts) htask ?_ hrow hlike
        rw [(hlike.reserved u hr).2.2, ha]
        exact (idxOf?_eq_some h.nodup).2 htoken
    · rw [decide_eq_false ha] at hhas hspent
      refine .unknown hhas hspent fun m task' htask' _ hticket => ?_
      obtain ⟨-, j', u, hrow', -, ha'⟩ := hout m task' htask' hticket
      rw [hrow, Option.some.injEq] at hrow'
      exact ha (hrow' ▸ ha')

theorem Keeps.drop (h : Keeps g b names d t tokens) (hrow : t.rows (n + 1) = some j) :
    Keeps g b names { d with jobs := update d.jobs n none }
      (t.alter (n + 1) fun _ => none) tokens :=
  h.change hrow (.inl ⟨rfl, rfl⟩) rfl rfl h.pops h.nodup (fun _ hk => ⟨hk, rfl⟩)
    fun _ hk => .inl hk

theorem Keeps.giveBack (h : Keeps g b names d t tokens) (hrow : t.rows (n + 1) = some j)
    (hlike : Like g b names tokens n task j) {delay : Nat} (hdelay : delay < 9223372036854775808)
    (now : Nat) : Keeps g b names
      { d with jobs := update d.jobs n (some (task.giveBack (later (now * 1000) delay))) }
      (t.alter (n + 1) fun j => some (j.giveBack now delay)) tokens := by
  refine h.change hrow (.inr ⟨_, j.giveBack now delay, rfl, rfl, le_rfl, ?_⟩) rfl rfl h.pops h.nodup
    (fun _ hk => ⟨hk, rfl⟩) fun _ hk => .inl hk
  refine ⟨hlike.name, hlike.hash, hlike.payload, hlike.short, hlike.priority, hlike.attempts,
    hlike.few, ⟨now + delay, ?_, later_millis now delay⟩, fun _ => ⟨rfl, rfl⟩,
    fun u hu => by cases hu⟩
  rw [Jobs.Job.giveBack, asI64_of_lt hdelay, Int.natCast_add]

end

/-! ## One call of both -/

def onDesk (b : Ns.App) (pops : Nat) : Ask → Ask
  | .push queue payload delay => .push (Ns.key (some b) queue) payload delay
  | .pop queue visibility => .pop (Ns.key (some b) queue) visibility
  | .delete ticket => .delete (ticket.filter (· < pops))
  | .release ticket delay => .release (ticket.filter (· < pops)) delay

section
variable {g : Config} {env : Env} {b : Ns.App} {names : Set Bytes} {d : Desk} {s : Backends}
  {q : Ask}

theorem l2Key_of_unnamed (hnamed : env.isNamed b = false) (queue : Bytes) :
    l2Key env (some b) queue = queue := by
  simp [l2Key, Option.filter, hnamed, Ns.key]

/-- **A call of the table is a step of the desk**, unless it presents a spent token. -/
theorem Keeps.ask (h : Keeps g b names d s.sql.state s.sql.taken) (hnamed : env.isNamed b = false)
    (hinj : Set.InjOn g.hash names)
    (hnames : ∀ queue, askQueue? q = some queue → Ns.key (some b) queue ∈ names)
    (hfits : s.Fits g env q) (hclock : s.now * 1000 < U64)
    (hfew : Backends.attempts (s.askSql env b q).2 < 65536) (hseq : d.pushes < 281474976710655)
    (hgood : ¬ s.PresentsSpent (0, q)) :
    ∃ d', Keeps g b names d' (s.askSql env b q).1.state (s.askSql env b q).1.taken ∧
      Step g (s.now * 1000) d (onDesk b d.pops q) (s.askSql env b q).2 d' := by
  cases q with
  | push queue payload delay =>
    obtain ⟨hutf8, hdelay, hlen, htakes, i, hi, -⟩ := hfits
    have hslots : g.slots ≠ 0 := by omega
    have hrefused : ¬ Refused g payload := by
      rw [Refused]
      omega
    have hpush := h.push (hnames queue rfl) hlen hdelay s.now
    have hrun : s.askSql env b (.push queue payload delay) =
        (⟨s.sql.state.insert ⟨queue, payload, 0, s.now + asI64 delay, none, 0, s.now⟩,
          s.sql.taken⟩, .took true) := by
      simp [Backends.askSql, Side.ask, request, Jobs.call, Jobs.push, Jobs.doPush,
        l2Key_of_unnamed hnamed, fromUtf8Lossy_of_isUtf8 hutf8, htakes, received, seen, unwrapOr]
    rw [hrun]
    exact ⟨_, hpush, .takes hrefused⟩
  | pop queue visibility =>
    obtain ⟨hutf8, hvis⟩ := hfits
    have hname := hnames queue rfl
    cases hfirst : s.sql.state.first (·.ready queue s.now) with
    | none =>
      have hrun : s.askSql env b (.pop queue visibility) = (s.sql, .job none) := by
        simp [Backends.askSql, Side.ask, request, Jobs.call, Jobs.pop, Jobs.doPop,
          l2Key_of_unnamed hnamed, fromUtf8Lossy_of_isUtf8 hutf8, hfirst, received, seen]
      rw [hrun]
      exact ⟨d, h, .idles (h.first_none hinj hname hclock hfirst)⟩
    | some r =>
      obtain ⟨i, j⟩ := r
      have hrow := (Jobs.first_eq_some.1 hfirst).1
      obtain ⟨n, rfl⟩ := h.pos hrow
      obtain ⟨task, htask, hlike⟩ := h.row hrow
      have hrun : s.askSql env b (.pop queue visibility) =
          (⟨s.sql.state.alter (n + 1) fun j => some (j.claim s.now visibility),
            s.sql.taken ++ [Jobs.leaseToken (n + 1) (j.attempts + 1)]⟩,
            .job (some ((j.attempts + 1) % 4294967296, j.payload))) := by
        simp [Backends.askSql, Side.ask, request, Jobs.call, Jobs.pop, Jobs.doPop,
          l2Key_of_unnamed hnamed, fromUtf8Lossy_of_isUtf8 hutf8, hfirst, received, seen]
      rw [hrun] at hfew ⊢
      have hsmall : j.attempts + 1 < 65536 := by
        have := hlike.few
        simp only [Backends.attempts] at hfew
        omega
      refine ⟨_, h.claim hseq hrow hlike hsmall hvis s.now, ?_⟩
      have hstep : Step g (s.now * 1000) d (onDesk b d.pops (.pop queue visibility)) _ _ :=
        .gives (h.first hinj hname hclock hfirst htask hlike)
      rwa [hlike.attempts, hlike.payload, take_of_length_le hlike.short] at hstep
  | delete ticket =>
    have hrun : s.askSql env b (.delete ticket) =
        (⟨(s.sql.state.present (presented s.sql.taken ticket) fun _ => none).1, s.sql.taken⟩,
          .flag (s.sql.state.present (presented s.sql.taken ticket) fun _ => none).2) := rfl
    rw [hrun, Jobs.Table.present, onDesk]
    have hpresents := h.presents hseq ticket
    generalize ticket.filter (· < d.pops) = k at hpresents ⊢
    cases hpresents with
    | unknown hhas _ hno =>
      rw [hhas]
      exact ⟨d, h, .keeps hno⟩
    | good hhas _ hid htask hk hrow _ =>
      rw [hhas, hid]
      exact ⟨_, h.drop hrow, .drops htask hk⟩
    | spent hhas hspent _ => exact absurd hspent hgood
  | release ticket delay =>
    have hrun : s.askSql env b (.release ticket delay) =
        (⟨(s.sql.state.present (presented s.sql.taken ticket)
            fun j => some (j.giveBack s.now delay)).1, s.sql.taken⟩,
          .flag (s.sql.state.present (presented s.sql.taken ticket)
            fun j => some (j.giveBack s.now delay)).2) := rfl
    rw [hrun, Jobs.Table.present, onDesk]
    have hpresents := h.presents hseq ticket
    generalize ticket.filter (· < d.pops) = k at hpresents ⊢
    cases hpresents with
    | unknown hhas _ hno =>
      rw [hhas]
      exact ⟨d, h, .holds hno⟩
    | good hhas _ hid htask hk hrow hlike =>
      rw [hhas, hid]
      exact ⟨_, h.giveBack hrow hlike hfits s.now, .returns htask hk⟩
    | spent hhas hspent _ => exact absurd hspent hgood

/-- A spent token is good in the table, and in no desk that the table keeps. -/
theorem Keeps.ask_spent (h : Keeps g b names d s.sql.state s.sql.taken) (env : Env)
    (hseq : d.pushes < 281474976710655) (hspent : s.PresentsSpent (0, q)) :
    (s.askSql env b q).2 = .flag true ∧
      ∀ now r d', Step g now d (onDesk b d.pops q) r d' → r = .flag false := by
  have hno : ∀ ticket : Option Nat, s.sql.state.spent (presented s.sql.taken ticket) = true →
      s.sql.state.has (presented s.sql.taken ticket) = true ∧ ∀ k m task,
        ticket.filter (· < d.pops) = some k → d.jobs m = some task → task.ticket ≠ some k := by
    intro ticket hspent
    have hpresents := h.presents hseq ticket
    generalize ticket.filter (· < d.pops) = k at hpresents ⊢
    cases hpresents with
    | unknown _ hunspent _ => rw [hspent] at hunspent; cases hunspent
    | good _ hunspent _ _ _ _ _ => rw [hspent] at hunspent; cases hunspent
    | spent hhas _ hno =>
      refine ⟨hhas, fun k m task heq htask => ?_⟩
      cases heq
      exact hno m task htask
  cases q with
  | push queue payload delay | pop queue visibility => exact hspent.elim
  | delete ticket | release ticket delay =>
    obtain ⟨hhas, hno⟩ := hno ticket hspent
    refine ⟨?_, fun now r d' hstep => ?_⟩
    · simp [Backends.askSql, Side.ask, request, Jobs.call, Jobs.delete, Jobs.doDelete, Jobs.release,
        Jobs.doRelease, Jobs.Table.present, hhas, seen]
    · rw [onDesk] at hstep
      generalize ticket.filter (· < d.pops) = k at hno hstep
      cases hstep
      · rfl
      next htask hk => exact absurd hk (hno _ _ _ rfl htask)

variable {idOf : Nat → Nat}

theorem idxOf?_presented (h : Queue.Shows g b s.shm.state s.shm.taken d idOf)
    (ticket : Option Nat) :
    s.shm.taken.idxOf? (presented s.shm.taken ticket) = ticket.filter (· < d.pops) := by
  rw [← h.pops]
  rcases presented_cases s.shm.taken ticket with ⟨hnone, hzero⟩ | ⟨k, hk, htoken⟩
  · rw [hnone, hzero, h.idxOf?_zero]
  · rw [hk, idxOf?_eq_some h.nodup, htoken]

/-- The counters of the ring are no further than the desk: the application has it to itself. -/
structure Sole (s : Ring) (taken : List Nat) (d : Desk) : Prop where
  ids : s.nextId ≤ d.pushes
  leases : s.nextLease ≤ taken.length

/-- The counters of the ring come to no end before the ids of the table do. -/
theorem Sole.unspent (h : Sole s.shm.state s.shm.taken d)
    (hshows : Queue.Shows g b s.shm.state s.shm.taken d idOf)
    (hkeeps : Keeps g b names d s.sql.state s.sql.taken) (hpushes : d.pushes < 281474976710655) :
    s.shm.state.Unspent := by
  have hids := h.ids
  have hleases := h.leases
  have hpops := hkeeps.pops_le
  rw [hshows.pops] at hleases
  simp only [Ring.Unspent, U64]
  omega

/-- One call of the ring moves the counters no further than it moves the desk. -/
theorem Sole.ask (h : Sole s.shm.state s.shm.taken d) (hleft : s.shm.state.Unspent)
    (hfits : s.Fits g env q) (htidy : Tidy g names s.shm.state) {x : Answer} {d' : Desk}
    (hstep : Step g now d (onDesk b d.pops q) x d') :
    Sole (s.askShm g b q).1.state (s.askShm g b q).1.taken d' := by
  have hpresents : ∀ {lease : Nat} {act : Job → Job} {out : Ring × Bool},
      Presents g (some b) lease act s.shm.state out → d'.pushes = d.pushes →
        Sole out.1 s.shm.taken d' := by
    rintro lease act out (⟨rfl, -⟩ | ⟨i, -, -, -, -, -, rfl⟩) hd
    all_goals exact ⟨hd ▸ h.ids, h.leases⟩
  cases q with
  | push queue payload delay =>
    simp only [Backends.askShm, Side.ask, request, Queue.code, run_map, received]
    cases hstep with
    | refuses href =>
      rw [push_refused href]
      exact h
    | takes href =>
      obtain ⟨i, -, -, hrun⟩ := push_run href hfits.2.2.2.2 (Ns.key (some b) queue) delay
      rw [hrun, hleft.id]
      exact ⟨Nat.succ_le_succ h.ids, h.leases⟩
  | pop queue visibility =>
    have hpushes : d'.pushes = d.pushes := by cases hstep <;> rfl
    simp only [Backends.askShm, Side.ask, request, Queue.code, run_map, received]
    rcases pop_run g (Ns.key (some b) queue) visibility s.shm.state with
      ⟨lane, hrun, -⟩ | ⟨lane, i, -, -, -, hrun⟩
    · rw [hrun]
      exact ⟨hpushes ▸ h.ids, by simpa using h.leases⟩
    · rw [hrun, hleft.lease]
      exact ⟨hpushes ▸ h.ids, by simpa using h.leases⟩
  | delete ticket =>
    simp only [Backends.askShm, Side.ask, request, Queue.code, run_map, received]
    refine hpresents (htidy.delete_run (some b) _) ?_
    rw [onDesk] at hstep
    generalize ticket.filter (· < d.pops) = k at hstep
    cases hstep <;> rfl
  | release ticket delay =>
    simp only [Backends.askShm, Side.ask, request, Queue.code, run_map, received]
    refine hpresents (htidy.release_run (some b) _ delay) ?_
    rw [onDesk] at hstep
    generalize ticket.filter (· < d.pops) = k at hstep
    cases hstep <;> rfl

/-- **A call of the ring is a step of the desk.** -/
theorem shows_ask (h : Queue.Shows g b s.shm.state s.shm.taken d idOf)
    (hleft : s.shm.state.Unspent) (htidy : Tidy g names s.shm.state) (hinj : Set.InjOn g.hash names)
    (hnames : ∀ queue, askQueue? q = some queue → Ns.key (some b) queue ∈ names)
    (hfits : s.Fits g env q) :
    ∃ d' idOf', Queue.Shows g b (s.askShm g b q).1.state (s.askShm g b q).1.taken d' idOf' ∧
      Tidy g names (s.askShm g b q).1.state ∧ (s.askShm g b q).1.state.nowMs = s.shm.state.nowMs ∧
      Step g s.shm.state.nowMs d (onDesk b d.pops q) (s.askShm g b q).2 d' := by
  cases q with
  | push queue payload delay =>
    have hfree : HasFree g s.shm.state ∨ Refused g payload := .inl hfits.2.2.2.2
    obtain ⟨d', idOf', hshows, hstep⟩ := shows_push h hleft hfree queue delay
    simp only [Backends.askShm, Side.ask, request, Queue.code, run_map, received, seen]
    exact ⟨d', idOf', hshows, htidy.push (hnames queue rfl) hfree hleft delay, push_nowMs ..,
      hstep⟩
  | pop queue visibility =>
    obtain ⟨d', hshows, hstep⟩ := shows_pop h htidy hleft hinj (hnames queue rfl) visibility
    simp only [Backends.askShm, Side.ask, request, Queue.code, run_map, received, seen]
    exact ⟨d', idOf, hshows, htidy.pop hleft _ visibility, pop_nowMs .., hstep⟩
  | delete ticket =>
    obtain ⟨d', hshows, hstep⟩ := shows_delete h htidy (presented s.shm.taken ticket)
    rw [idxOf?_presented h] at hstep
    simp only [Backends.askShm, Side.ask, request, Queue.code, run_map, received, seen]
    exact ⟨d', idOf, hshows, htidy.delete _ _, (htidy.delete_run _ _).nowMs, hstep⟩
  | release ticket delay =>
    obtain ⟨d', hshows, hstep⟩ := shows_release h htidy (presented s.shm.taken ticket) delay
    rw [idxOf?_presented h] at hstep
    simp only [Backends.askShm, Side.ask, request, Queue.code, run_map, received, seen]
    exact ⟨d', idOf, hshows, htidy.release _ _ _, (htidy.release_run _ _ _).nowMs, hstep⟩

end

/-! ## Runs -/

/-- The two are one desk. -/
structure Backends.Inv (g : Config) (b : Ns.App) (names : Set Bytes) (s : Backends) : Prop where
  clock : s.shm.state.nowMs = s.now * 1000
  tidy : Tidy g names s.shm.state
  desk : ∃ d idOf, Queue.Shows g b s.shm.state s.shm.taken d idOf ∧
    Sole s.shm.state s.shm.taken d ∧ Keeps g b names d s.sql.state s.sql.taken

namespace Backends

variable {g : Config} {env : Env} {b : Ns.App} {names : Set Bytes} {s : Backends} {e : Nat × Ask}

theorem inv_init (g : Config) (b : Ns.App) (names : Set Bytes) (now : Nat) :
    (init now).Inv g b names :=
  ⟨rfl, tidy_init g names _, .empty, _, shows_init g b _, ⟨le_rfl, le_rfl⟩, keeps_init g b names⟩

theorem Inv.wait (h : s.Inv g b names) (secs : Nat) : (s.wait secs).Inv g b names := by
  obtain ⟨d, idOf, hshows, hsole, hkeeps⟩ := h.desk
  refine ⟨?_, h.tidy.congr rfl rfl rfl, d, idOf, hshows.aside ⟨fun _ _ _ => rfl, le_rfl, le_rfl⟩,
    ⟨hsole.ids, hsole.leases⟩, hkeeps⟩
  simp only [Backends.wait, Queue.tick, h.clock]
  omega

/-- **One call of both.** They answer the same unless the call presents a spent token, and then they
are one desk again. -/
theorem Inv.step (h : s.Inv g b names) (hnamed : env.isNamed b = false)
    (hinj : Set.InjOn g.hash names) (huse : s.Usable g env b e)
    (hnames : ∀ queue, askQueue? e.2 = some queue → Ns.key (some b) queue ∈ names) :
    (s.Agrees g env b e ↔ ¬ s.PresentsSpent e) ∧
      (s.Agrees g env b e → (s.step g env b e).Inv g b names) := by
  obtain ⟨hfits, hclock, hfew, hseq⟩ := huse
  obtain ⟨hnow, htidy, d, idOf, hshows, hsole, hkeeps⟩ := h.wait e.1
  have hpushes : d.pushes < 281474976710655 := hkeeps.seq ▸ hseq
  have hleft := hsole.unspent hshows hkeeps hpushes
  obtain ⟨d', idOf', hshows', htidy', hnow', hstep⟩ :=
    shows_ask hshows hleft htidy hinj hnames hfits
  rw [hnow] at hstep
  by_cases hspent : s.PresentsSpent e
  · obtain ⟨hsql, hno⟩ := hkeeps.ask_spent (q := e.2) env hpushes hspent
    have hne : ¬ s.Agrees g env b e := by
      rw [Agrees, hno _ _ _ hstep, hsql]
      decide
    exact ⟨⟨fun hag => absurd hag hne, fun hgood => absurd hspent hgood⟩,
      fun hag => absurd hag hne⟩
  · obtain ⟨d'', hkeeps', hstep'⟩ := hkeeps.ask hnamed hinj hnames hfits hclock hfew hpushes hspent
    obtain ⟨hsame, rfl⟩ := Step.det (hshows.distinct htidy) hstep hstep'
    refine ⟨iff_of_true hsame hspent, fun _ =>
      ⟨?_, htidy', d', idOf', hshows', hsole.ask hleft hfits htidy hstep, hkeeps'⟩⟩
    exact hnow'.trans hnow

end Backends

/-- **Both backends are one queue, except for spent tokens.** In every run of calls that fit, the
two give the same answers throughout if and only if no call presents a token that a job was given
back under, before the job is claimed again. -/
theorem queues_agree_iff (g : Config) (env : Env) (b : Ns.App) (hnamed : env.isNamed b = false)
    (now : Nat) (ops : List (Nat × Ask)) (hinj : Set.InjOn g.hash (askNames b ops))
    (huse : Run.Along (Backends.step g env b) (Backends.Usable g env b) (.init now) ops) :
    Run.Along (Backends.step g env b) (Backends.Agrees g env b) (.init now) ops ↔
      Run.Along (Backends.step g env b) (fun s e => ¬ s.PresentsSpent e) (.init now) ops := by
  have hnames : ∀ e ∈ ops, ∀ queue, askQueue? e.2 = some queue →
      Ns.key (some b) queue ∈ askNames b ops := fun e he queue hqueue =>
    ⟨queue, rfl, mem_filterMap.2 ⟨e, he, hqueue⟩⟩
  refine (huse.and_mem hnames).iff (I := Backends.Inv g b (askNames b ops)) ?_ ?_
    (Backends.inv_init g b _ now)
  · rintro s e ⟨huse, hname⟩ h hagrees
    exact (h.step hnamed hinj huse hname).2 hagrees
  · rintro s e ⟨huse, hname⟩ h
    exact (h.step hnamed hinj huse hname).1

/-! ## A token that is spent -/

instance Backends.decidableFits (g : Config) (env : Env) (s : Backends) :
    (q : Ask) → Decidable (s.Fits g env q)
  | .push .. => inferInstanceAs (Decidable (_ ∧ _ ∧ _ ∧ _ ∧ _))
  | .pop .. => inferInstanceAs (Decidable (_ ∧ _))
  | .delete _ => inferInstanceAs (Decidable True)
  | .release .. => inferInstanceAs (Decidable (_ < _))

instance Backends.decidableUsable (g : Config) (env : Env) (b : Ns.App) (s : Backends)
    (e : Nat × Ask) : Decidable (s.Usable g env b e) :=
  inferInstanceAs (Decidable (_ ∧ _ ∧ _ ∧ _))

instance Backends.decidableSpent (s : Backends) : (e : Nat × Ask) → Decidable (s.PresentsSpent e)
  | (_, .push ..) => inferInstanceAs (Decidable False)
  | (_, .pop ..) => inferInstanceAs (Decidable False)
  | (_, .delete _) => inferInstanceAs (Decidable (_ = true))
  | (_, .release ..) => inferInstanceAs (Decidable (_ = true))

def smallRing : Config := .init (fun _ => 0) 16

/-- The application of the runs below. -/
def oneApp : Ns.App := ⟨List.replicate 16 49, by decide, by decide⟩

/-- A job is pushed, popped, given back and popped again a minute later, and then deleted. -/
def retried : List (Nat × Ask) :=
  [(0, .push (ofString "mail") [1] 0), (0, .pop (ofString "mail") 90), (1, .release (some 0) 59),
    (60, .pop (ofString "mail") 90), (0, .delete (some 0)), (0, .delete (some 1))]

/-- The job is retried in the same way by both. The first token is stale for both. -/
theorem queues_agree_retried : Run.Along (Backends.step smallRing (plainEnv false) oneApp)
      (Backends.Agrees smallRing (plainEnv false) oneApp) (.init 0) retried := by
  refine (queues_agree_iff smallRing (plainEnv false) oneApp rfl 0 retried ?_ ?_).2 ?_
  · rintro _ ⟨q, rfl, hq⟩ _ ⟨q', rfl, hq'⟩ -
    simp [retried, askQueue?] at hq hq'
    rw [hq, hq']
  · decide
  · decide

/-- A job is pushed, popped and given back. -/
def returned : List (Nat × Ask) :=
  [(0, .push (ofString "mail") [1] 0), (0, .pop (ofString "mail") 90), (0, .release (some 0) 0)]

/-- **A job is lost.** It has been given back to be tried again, and the worker that gave it back
deletes it under the same token: the ring refuses, the table deletes it. -/
theorem queues_differ :
    let s := Run.runs (Backends.step smallRing (plainEnv false) oneApp) (.init 0) returned
    Run.Along (Backends.step smallRing (plainEnv false) oneApp)
      (Backends.Usable smallRing (plainEnv false) oneApp) (.init 0)
      (returned ++ [(0, .delete (some 0))]) ∧
    (s.askShm smallRing oneApp (.delete (some 0))).2 = .flag false ∧
    (s.askSql (plainEnv false) oneApp (.delete (some 0))).2 = .flag true := by
  decide

end Askr.Sql
