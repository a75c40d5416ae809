import Askr.Queue.Ring
import Askr.Sql.Cache
import Mathlib.Data.List.MinMax

/-!
# The queue in a database

`squeue_sql.rs`: the calls of `squeue.rs` over the table `askr_jobs`. The name of a queue reaches a
statement as text, through `String::from_utf8_lossy`, and a job is claimed under a token that packs
the id of its row and the number of the attempt. Each public function runs one statement.

Times are in seconds, as integers: a sum of the clock and a delay that leaves 64 bits is a `REAL`
later than every clock, like the integer it stands for. `max_attempts` and the table of failed jobs
are not read by any of these statements and are left out.
-/

namespace Askr.Sql.Jobs

open Bytes Function Sqlite List Option

/-- A row of `askr_jobs`, without its id. -/
structure Job where
  queue : Bytes
  payload : Bytes
  priority : Int
  availableAt : Int
  reservedUntil : Option Int
  attempts : Nat
  createdAt : Nat
deriving DecidableEq

/-- The table by its primary key, and the last id that `AUTOINCREMENT` gave. -/
structure Table where
  rows : Nat → Option Job
  seq : Nat
  bound : ∀ i, seq < i → rows i = none

def Table.empty : Table := ⟨fun _ => none, 0, fun _ _ => rfl⟩

/-- A row is added under the next id. -/
def Table.insert (t : Table) (j : Job) : Table where
  rows := update t.rows (t.seq + 1) (some j)
  seq := t.seq + 1
  bound i hi := by
    rw [update_of_ne (Nat.ne_of_gt hi)]
    exact t.bound i (Nat.lt_of_succ_lt hi)

/-- A row is changed, or deleted. -/
def Table.alter (t : Table) (i : Nat) (f : Job → Option Job) : Table where
  rows := update t.rows i ((t.rows i).bind f)
  seq := t.seq
  bound k hk := by
    by_cases hki : k = i
    · rw [hki, update_self, t.bound i (hki ▸ hk), bind_none]
    · rw [update_of_ne hki, t.bound k hk]

/-! ## Statements -/

/-- `reserved_until IS NULL OR reserved_until <= unixepoch()`. -/
def Job.unreserved (j : Job) (now : Nat) : Bool :=
  match j.reservedUntil with
  | none => true
  | some u => u ≤ now

/-- `available_at <= unixepoch()`. -/
def Job.due (j : Job) (now : Nat) : Bool := j.availableAt ≤ now

/-- The job may be claimed from the queue. -/
def Job.ready (j : Job) (queue : Bytes) (now : Nat) : Bool :=
  j.queue = queue && j.due now && j.unreserved now

structure Rank where
  priority : Int
  availableAt : Int
  id : Nat

/-- `ORDER BY priority DESC, available_at, id`. -/
def Rank.Le (a b : Rank) : Prop :=
  b.priority < a.priority ∨ (a.priority = b.priority ∧
    (a.availableAt < b.availableAt ∨ (a.availableAt = b.availableAt ∧ a.id ≤ b.id)))

instance : DecidableRel Rank.Le := fun _ _ => inferInstanceAs (Decidable (_ ∨ _))

instance : LinearOrder Rank where
  le := Rank.Le
  le_refl _ := .inr ⟨rfl, .inr ⟨rfl, le_rfl⟩⟩
  le_trans _ _ _ hab hbc := by
    simp only [Rank.Le] at hab hbc ⊢
    omega
  le_antisymm a b hab hba := by
    obtain ⟨p, t, i⟩ := a
    obtain ⟨p', t', i'⟩ := b
    simp only [Rank.Le] at hab hba
    simp only [Rank.mk.injEq]
    omega
  le_total _ _ := by
    simp only [Rank.Le]
    omega
  toDecidableLE := inferInstanceAs (DecidableRel Rank.Le)

def Job.rank (i : Nat) (j : Job) : Rank :=
  { priority := j.priority, availableAt := j.availableAt, id := i }

/-- The rows that satisfy a condition, in the order of their ids. -/
def Table.filter (t : Table) (p : Job → Bool) : List (Nat × Job) :=
  (List.range (t.seq + 1)).filterMap fun i => ((t.rows i).filter p).map (i, ·)

/-- The first of them in the order of the claim. -/
def Table.first (t : Table) (p : Job → Bool) : Option (Nat × Job) :=
  (t.filter p).argmin fun r => r.2.rank r.1

def doPush (env : Env) (now : Nat) (queue payload : Bytes) (delay : Nat) (t : Table) :
    Table × Except SqlError Nat :=
  if env.takes (fromUtf8Lossy queue) (.blob payload) then
    (t.insert
      { queue := fromUtf8Lossy queue, payload, priority := 0, availableAt := now + asI64 delay
        reservedUntil := none, attempts := 0, createdAt := now }, .ok (t.seq + 1))
  else (t, .error .tooBig)

/-- `lease_token`: the id shifted left by sixteen bits in a word of 64, and the attempt in those
sixteen. -/
def leaseToken (id attempts : Nat) : Nat := id * 65536 % 18446744073709551616 + attempts % 65536

def leaseParts (token : Nat) : Nat × Nat := (token / 65536, token % 65536)

def Job.claim (j : Job) (now visibility : Nat) : Job :=
  { j with reservedUntil := some (now + asI64 visibility), attempts := j.attempts + 1 }

def doPop (now : Nat) (queue : Bytes) (visibility : Nat) (t : Table) :
    Table × Option Queue.Reserved :=
  match t.first (·.ready (fromUtf8Lossy queue) now) with
  | none => (t, none)
  | some (i, j) =>
    (t.alter i fun j => some (j.claim now visibility),
      some ⟨leaseToken i (j.attempts + 1), (j.attempts + 1) % 4294967296, j.payload⟩)

/-- `WHERE id = ?1 AND (attempts & 65535) = ?2`. -/
def Table.has (t : Table) (token : Nat) : Bool :=
  (t.rows (leaseParts token).1).any fun j => j.attempts % 65536 = (leaseParts token).2

/-- A row is changed, or deleted, if it is the one that the token names. -/
def Table.present (t : Table) (token : Nat) (f : Job → Option Job) : Table × Bool :=
  if t.has token then (t.alter (leaseParts token).1 f, true) else (t, false)

def doDelete (token : Nat) (t : Table) : Table × Bool := t.present token fun _ => none

def Job.giveBack (j : Job) (now delay : Nat) : Job :=
  { j with reservedUntil := none, availableAt := now + asI64 delay }

def doRelease (now token delay : Nat) (t : Table) : Table × Bool :=
  t.present token fun j => some (j.giveBack now delay)

def doSize (now : Nat) (queue : Bytes) (t : Table) : Nat :=
  (t.filter (·.ready (fromUtf8Lossy queue) now)).length

/-- `do_counts`: pending, delayed and reserved, and when the oldest pending job was created, in
milliseconds. -/
def doCounts (now : Nat) (queue : Bytes) (t : Table) : Nat × Nat × Nat × Nat :=
  let jobs := (t.filter (·.queue = fromUtf8Lossy queue)).map Prod.snd
  let pending := jobs.filter fun j => j.unreserved now && j.due now
  (pending.length, (jobs.filter fun j => j.unreserved now && !j.due now).length,
    (jobs.filter fun j => !j.unreserved now).length,
    ((pending.map Job.createdAt).min?.getD 0) * 1000)

/-! ## The public functions -/

section
variable (env : Env) (current : Option Ns.App) (now : Nat)

def push (queue payload : Bytes) (delay : Nat) (t : Table) : Table × Nat :=
  let out := doPush env now (l2Key env current queue) payload delay t
  (out.1, unwrapOr out.2 0)

def pop (queue : Bytes) (visibility : Nat) (t : Table) : Table × Option Queue.Reserved :=
  doPop now (l2Key env current queue) visibility t

end

def delete (token : Nat) (t : Table) : Table × Bool := doDelete token t

def release (now token delay : Nat) (t : Table) : Table × Bool := doRelease now token delay t

/-! ## What the statements see -/

section
variable {t : Table} {p : Job → Bool} {i k : Nat} {j : Job}

@[simp] theorem rows_alter_self (f : Job → Option Job) : (t.alter i f).rows i = (t.rows i).bind f :=
  update_self ..

theorem rows_alter_of_ne (h : k ≠ i) (f : Job → Option Job) : (t.alter i f).rows k = t.rows k :=
  update_of_ne h ..

@[simp] theorem rows_insert_self (j : Job) : (t.insert j).rows (t.seq + 1) = some j :=
  update_self ..

theorem rows_insert_of_ne (h : k ≠ t.seq + 1) (j : Job) : (t.insert j).rows k = t.rows k :=
  update_of_ne h ..

theorem Table.le_seq (h : t.rows i = some j) : i ≤ t.seq := by
  by_contra hlt
  rw [t.bound i (Nat.not_le.1 hlt)] at h
  cases h

theorem mem_filter : (i, j) ∈ t.filter p ↔ t.rows i = some j ∧ p j = true := by
  simp only [Table.filter, mem_filterMap, mem_range, map_eq_some_iff,
    filter_eq_some_iff, Prod.mk.injEq]
  constructor
  · rintro ⟨k, -, j', ⟨hrow, hp⟩, rfl, rfl⟩
    exact ⟨hrow, hp⟩
  · rintro ⟨hrow, hp⟩
    exact ⟨i, Nat.lt_succ_of_le (t.le_seq hrow), j, ⟨hrow, hp⟩, rfl, rfl⟩

theorem Job.rank_le {j' : Job} :
    j.rank i ≤ j'.rank k ↔ j'.priority < j.priority ∨ (j.priority = j'.priority ∧
      (j.availableAt < j'.availableAt ∨ (j.availableAt = j'.availableAt ∧ i ≤ k))) := Iff.rfl

theorem first_eq_some : t.first p = some (i, j) ↔ t.rows i = some j ∧ p j = true ∧
    ∀ k j', t.rows k = some j' → p j' = true → j.rank i ≤ j'.rank k := by
  constructor
  · intro h
    obtain ⟨hmem, hle, -⟩ := mem_argmin_iff.1 h
    obtain ⟨hrow, hp⟩ := mem_filter.1 hmem
    exact ⟨hrow, hp, fun k j' hrow' hp' => hle (k, j') (mem_filter.2 ⟨hrow', hp'⟩)⟩
  · rintro ⟨hrow, hp, hle⟩
    refine mem_argmin_iff.2 ⟨mem_filter.2 ⟨hrow, hp⟩, ?_, ?_⟩
    · rintro ⟨k, j'⟩ hmem
      obtain ⟨hrow', hp'⟩ := mem_filter.1 hmem
      exact hle k j' hrow' hp'
    · rintro ⟨k, j'⟩ hmem hge
      obtain ⟨hrow', hp'⟩ := mem_filter.1 hmem
      have hki : i = k := by
        have hik := Job.rank_le.1 (hle k j' hrow' hp')
        have hki := Job.rank_le.1 hge
        simp only at hki
        omega
      subst hki
      rw [hrow, some.injEq] at hrow'
      rw [hrow']

theorem first_eq_none : t.first p = none ↔ ∀ i j, t.rows i = some j → p j = false := by
  rw [Table.first, argmin_eq_none, eq_nil_iff_forall_not_mem]
  constructor
  · intro h i j hrow
    refine Bool.eq_false_iff.2 fun hp => ?_
    exact h (i, j) (mem_filter.2 ⟨hrow, hp⟩)
  · rintro h ⟨i, j⟩ hmem
    obtain ⟨hrow, hp⟩ := mem_filter.1 hmem
    rw [h i j hrow] at hp
    cases hp

theorem leaseParts_leaseToken {id : Nat} (h : id < 281474976710656) (attempts : Nat) :
    leaseParts (leaseToken id attempts) = (id, attempts % 65536) := by
  rw [leaseParts, leaseToken, Prod.mk.injEq]
  omega

theorem has_leaseToken {id : Nat} (h : id < 281474976710656) (attempts : Nat) :
    t.has (leaseToken id attempts) =
      (t.rows id).any fun j => j.attempts % 65536 = attempts % 65536 := by
  rw [Table.has, leaseParts_leaseToken h]

end

end Askr.Sql.Jobs
