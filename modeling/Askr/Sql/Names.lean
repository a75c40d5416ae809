import Askr.Sql.Jobs
import Mathlib.Data.List.Forall2

/-!
# Keys and queue names in a database

Every statement turns its key, or the name of its queue, into text. Two byte strings with the same
text are one key to the database; two with different texts are apart: whatever is done under one of
them, the operations on the other return what they would have returned (`Cached.Apart`,
`Jobs.Apart`).

A statement of the cache works on one row (`Cached.Op.run_row`). A statement of the queue may be
given a row number, so two runs are compared up to a renumbering that keeps the order of the rows of
one queue (`Alike`).
-/

namespace Askr.Sql

open Bytes Function Sqlite Option Nat List

/-! ## The cache -/

namespace Cached

/-- The statements of the cache. -/
inductive Op where
  | get
  | getWithTtl
  | set (val : Bytes) (ttl : Nat)
  | add (val : Bytes) (ttl : Nat)
  | delete
  | increment (delta : Int) (ttl : Nat)
  | touch (ttl : Nat)

inductive Out where
  | value (r : Except SqlError (Option Bytes))
  | timed (r : Except SqlError (Option (Bytes × Nat)))
  | done (r : Except SqlError Unit)
  | flag (r : Except SqlError Bool)
  | count (r : Except SqlError Int)

section
variable (env : Env)

/-- One statement under a key. -/
def Op.run (now : Nat) (key : Bytes) (t : Table env.doubles) : Op → Table env.doubles × Out
  | .get => (t, .value (doGet now key t))
  | .getWithTtl => (t, .timed (doGetWithTtl now key t))
  | .set val ttl => (doSet env now key val ttl t).map id .done
  | .add val ttl => (doAdd env now key val ttl t).map id .flag
  | .delete => (doDelete env key t).map id .flag
  | .increment delta ttl => (doIncrement env now key delta ttl t).map id .count
  | .touch ttl => (doTouch env now key ttl t).map id .flag

/-- What the operations on `b` return in a run, each at a time of its own. -/
def answers (b : Bytes) : List (Nat × Bytes × Op) → Table env.doubles → List Out
  | [], _ => []
  | (now, key, op) :: rest, t =>
    let out := op.run env now key t
    if key = b then out.2 :: answers b rest out.1 else answers b rest out.1

/-- **No operation on `a` changes what a later operation on `b` returns.** -/
def Apart (a b : Bytes) : Prop :=
  ∀ (t : Table env.doubles) (now : Nat) (op : Op) (later : List (Nat × Bytes × Op)),
    answers env b later (op.run env now a t).1 = answers env b later t

end

section
variable {env : Env} {t t' : Table env.doubles}

/-- **A statement reads the row of its key, and writes that one.** -/
theorem Op.run_row (now : Nat) (key : Bytes) (t : Table env.doubles) (op : Op) :
    op.run env now key t = (update t (fromUtf8Lossy key)
        ((op.run env now key fun _ => t (fromUtf8Lossy key)).1 (fromUtf8Lossy key)),
      (op.run env now key fun _ => t (fromUtf8Lossy key)).2) := by
  cases op with
  | get | getWithTtl => simp [Op.run, doGet, doGetWithTtl, Table.live]
  | set val ttl | increment delta ttl =>
    simp only [Op.run, doSet, doIncrement, upsert]
    split <;> simp
  | add val ttl =>
    simp only [Op.run, doAdd, upsert, Table.live]
    by_cases hlive : ((t (fromUtf8Lossy key)).filter fun row => !row.expiresAt.passed now).isSome
    · simp [hlive]
    · by_cases htakes : env.takes (fromUtf8Lossy key) (.blob val) <;> simp [hlive, htakes]
  | delete => simp [Op.run, doDelete]
  | touch ttl =>
    simp only [Op.run, doTouch, Table.live]
    split <;> simp

theorem answers_congr {b : Bytes} (ops : List (Nat × Bytes × Op))
    (h : t (fromUtf8Lossy b) = t' (fromUtf8Lossy b)) :
    answers env b ops t = answers env b ops t' := by
  induction ops generalizing t t' with
  | nil => rfl
  | cons o ops ih =>
    obtain ⟨now, key, op⟩ := o
    simp only [answers]
    rw [op.run_row now key t, op.run_row now key t']
    by_cases hkey : fromUtf8Lossy key = fromUtf8Lossy b
    · rw [hkey, h]
      generalize op.run env now key (fun _ => t' (fromUtf8Lossy b)) = out
      generalize out.1 (fromUtf8Lossy b) = row
      have hrest : answers env b ops (update t (fromUtf8Lossy b) row) =
          answers env b ops (update t' (fromUtf8Lossy b) row) := by
        apply ih
        rw [update_self, update_self]
      rw [hrest]
    · have hne : key ≠ b := fun heq => hkey (heq ▸ rfl)
      rw [if_neg hne, if_neg hne]
      apply ih
      simpa only [update_of_ne (Ne.symm hkey)] using h

theorem apart_iff (env : Env) (a b : Bytes) :
    Apart env a b ↔ fromUtf8Lossy a ≠ fromUtf8Lossy b := by
  constructor
  · intro h htext
    have hget := h (fun _ => some ⟨.blob [], .never⟩) 0 .delete [(0, b, .get)]
    simp [answers, Op.run, doDelete, doGet, Table.live, htext, Deadline.passed] at hget
  · intro hne t now op later
    refine answers_congr later ?_
    rw [op.run_row now a t]
    exact update_of_ne (Ne.symm hne) _ _

end

end Cached

/-! ## The queue -/

namespace Jobs

/-- The table, and the tokens that the pops on each name have returned. -/
structure Session where
  table : Table
  tokens : Bytes → List Nat

/-- What is done under the name of a queue. A token is named by the pop on that name that returned
it. -/
inductive Op where
  | push (payload : Bytes) (delay : Nat)
  | pop (visibility : Nat)
  | delete (ticket : Nat)
  | release (ticket delay : Nat)
  | size
  | counts

inductive Out where
  | took (b : Bool)
  | job (r : Option (Nat × Bytes))
  | flag (b : Bool)
  | size (n : Nat)
  | counts (c : Nat × Nat × Nat × Nat)

/-- A token that was returned is presented; without one there is no call. -/
def Session.present (s : Session) (queue : Bytes) (ticket : Nat) (f : Nat → Table → Table × Bool) :
    Session × Out :=
  match (s.tokens queue)[ticket]? with
  | none => (s, .flag false)
  | some token => ({ s with table := (f token s.table).1 }, .flag (f token s.table).2)

section
variable (env : Env)

/-- One call under the name of a queue. -/
def Op.run (now : Nat) (queue : Bytes) (s : Session) : Op → Session × Out
  | .push payload delay =>
    let out := doPush env now queue payload delay s.table
    ({ s with table := out.1 }, .took out.2.isOk)
  | .pop visibility =>
    let out := doPop now queue visibility s.table
    (⟨out.1, update s.tokens queue
        (s.tokens queue ++ (out.2.map Queue.Reserved.id).toList)⟩,
      .job (out.2.map fun r => (r.attempts, r.payload)))
  | .delete ticket => s.present queue ticket doDelete
  | .release ticket delay => s.present queue ticket fun token => doRelease now token delay
  | .size => (s, .size (doSize now queue s.table))
  | .counts => (s, .counts (doCounts now queue s.table))

def after : List (Nat × Bytes × Op) → Session → Session
  | [], s => s
  | (now, queue, op) :: rest, s => after rest (op.run env now queue s).1

/-- What the operations on `b` return in a run. -/
def answers (b : Bytes) : List (Nat × Bytes × Op) → Session → List Out
  | [], _ => []
  | (now, queue, op) :: rest, s =>
    let out := op.run env now queue s
    if queue = b then out.2 :: answers b rest out.1 else answers b rest out.1

/-- **No operation on `a` changes what a later operation on `b` returns**, in a table that has given
out fewer than `2 ^ 48` ids. -/
def Apart (a b : Bytes) : Prop :=
  ∀ (t : Table) (before : List (Nat × Bytes × Op)) (now : Nat) (op : Op)
    (later : List (Nat × Bytes × Op)),
    t.seq + before.length + 1 + later.length < 281474976710656 →
      let s := after env before ⟨t, fun _ => []⟩
      answers env b later (op.run env now a s).1 = answers env b later s

end

/-! ### What a call can do -/

/-- What a call on a queue does to the table: nothing, a new row of that queue, or a row of that
queue changed or deleted. -/
inductive Touches (q : Bytes) (t : Table) : Table → Prop where
  | same : Touches q t t
  | insert {j : Job} : j.queue = q → Touches q t (t.insert j)
  | alter {i : Nat} {f : Job → Option Job} : (∀ j, t.rows i = some j → j.queue = q) →
      (∀ j j', f j = some j' → j'.queue = j.queue) → Touches q t (t.alter i f)

/-- Every token names a row of the queue it came from, if that row is still there. -/
def Session.Sound (s : Session) : Prop :=
  ∀ c, ∀ token ∈ s.tokens c, ∃ i n, token = leaseToken i n ∧ i ≤ s.table.seq ∧
    ∀ j, s.table.rows i = some j → j.queue = fromUtf8Lossy c

section
variable {env : Env} {s s' : Session} {now : Nat} {queue : Bytes} {q : Bytes} {t t' t₁ : Table}

theorem doPush_touches (env : Env) (now : Nat) (queue payload : Bytes) (delay : Nat) (t : Table) :
    Touches (fromUtf8Lossy queue) t (doPush env now queue payload delay t).1 := by
  rw [doPush]
  split
  · exact .insert rfl
  · exact .same

theorem doPop_cases (now : Nat) (queue : Bytes) (visibility : Nat) (t : Table) :
    (t.first (·.ready (fromUtf8Lossy queue) now) = none ∧
      doPop now queue visibility t = (t, none)) ∨
    ∃ i j, t.first (·.ready (fromUtf8Lossy queue) now) = some (i, j) ∧
      doPop now queue visibility t = (t.alter i fun j => some (j.claim now visibility),
        some ⟨leaseToken i (j.attempts + 1), (j.attempts + 1) % 4294967296, j.payload⟩) := by
  rw [doPop]
  split
  · rename_i hnone
    exact .inl ⟨hnone, rfl⟩
  · rename_i i j hsome
    exact .inr ⟨i, j, hsome, rfl⟩

theorem Job.queue_of_ready {j : Job} (h : j.ready q now = true) : j.queue = q := by
  simp only [Job.ready, Bool.and_eq_true, decide_eq_true_eq] at h
  exact h.1.1

theorem first_queue {i : Nat} {j : Job} (h : t.first (·.ready q now) = some (i, j)) :
    t.rows i = some j ∧ j.queue = q := by
  obtain ⟨hrow, hready, -⟩ := first_eq_some.1 h
  exact ⟨hrow, Job.queue_of_ready hready⟩

theorem doPop_touches (now : Nat) (queue : Bytes) (visibility : Nat) (t : Table) :
    Touches (fromUtf8Lossy queue) t (doPop now queue visibility t).1 := by
  rcases doPop_cases now queue visibility t with ⟨-, hpop⟩ | ⟨i, j, hfirst, hpop⟩
  · rw [hpop]
    exact .same
  · rw [hpop]
    obtain ⟨hrow, hqueue⟩ := first_queue hfirst
    refine .alter (fun j' hrow' => ?_) fun j j' hj => ?_
    · rw [hrow, some.injEq] at hrow'
      exact hrow' ▸ hqueue
    · cases hj
      rfl

theorem Session.Sound.present_touches (h : s.Sound) (hseq : s.table.seq < 281474976710656)
    (queue : Bytes) (ticket : Nat) {f : Job → Option Job}
    (hf : ∀ j j', f j = some j' → j'.queue = j.queue) : Touches (fromUtf8Lossy queue) s.table
      (s.present queue ticket fun token t => t.present token f).1.table := by
  rw [Session.present]
  split
  · exact .same
  · rename_i token hget
    obtain ⟨i, n, rfl, hle, hqueue⟩ := h queue token (mem_of_getElem? hget)
    rw [Table.present, leaseParts_leaseToken (hle.trans_lt hseq)]
    split
    · exact .alter hqueue hf
    · exact .same

theorem Job.queue_of_giveBack {delay : Nat} (j j' : Job)
    (h : some (j.giveBack now delay) = some j') : j'.queue = j.queue := by
  cases h
  rfl

theorem Session.Sound.touches (h : s.Sound) (env : Env)
    (hseq : s.table.seq < 281474976710656) (now : Nat) (queue : Bytes) (op : Op) :
    Touches (fromUtf8Lossy queue) s.table (op.run env now queue s).1.table := by
  cases op with
  | push payload delay => exact doPush_touches env now queue payload delay s.table
  | pop visibility => exact doPop_touches now queue visibility s.table
  | delete ticket => exact h.present_touches hseq queue ticket fun j j' hj => by cases hj
  | release ticket delay => exact h.present_touches hseq queue ticket Job.queue_of_giveBack
  | size | counts => exact .same

theorem tokens_present (s : Session) (queue : Bytes) (ticket : Nat)
    (f : Nat → Table → Table × Bool) : (s.present queue ticket f).1.tokens = s.tokens := by
  rw [Session.present]
  split <;> rfl

theorem tokens_run_of_ne {c : Bytes} (h : c ≠ queue) (op : Op) :
    (op.run env now queue s).1.tokens c = s.tokens c := by
  cases op with
  | push payload delay | size | counts => rfl
  | pop visibility => exact update_of_ne h ..
  | delete ticket | release ticket delay => exact congrFun (tokens_present ..) c

theorem Touches.seq_le (h : Touches q t t₁) : t.seq ≤ t₁.seq ∧ t₁.seq ≤ t.seq + 1 := by
  cases h with
  | same => exact ⟨le_rfl, le_succ _⟩
  | insert => exact ⟨le_succ _, le_rfl⟩
  | alter => exact ⟨le_rfl, le_succ _⟩

theorem Touches.keeps (h : Touches q t t₁) {i : Nat} (hi : i ≤ t.seq) {j : Job}
    (hrow : t₁.rows i = some j) : ∃ j', t.rows i = some j' ∧ j'.queue = j.queue := by
  cases h with
  | same => exact ⟨j, hrow, rfl⟩
  | insert =>
    rw [rows_insert_of_ne (by omega)] at hrow
    exact ⟨j, hrow, rfl⟩
  | @alter k f _ hf =>
    by_cases hik : i = k
    · rw [hik, rows_alter_self, bind_eq_some_iff] at hrow
      obtain ⟨j', hrow', hj'⟩ := hrow
      exact ⟨j', hik ▸ hrow', (hf j' j hj').symm⟩
    · rw [rows_alter_of_ne hik] at hrow
      exact ⟨j, hrow, rfl⟩

/-- The tokens of a call: those there were, and for a pop perhaps one of its queue. -/
theorem Session.Sound.run (h : s.Sound) (env : Env) (hseq : s.table.seq < 281474976710656)
    (now : Nat) (queue : Bytes) (op : Op) : (op.run env now queue s).1.Sound := by
  have htouch := h.touches env hseq now queue op
  have hold : ∀ c, ∀ token ∈ s.tokens c, ∃ i n, token = leaseToken i n ∧
      i ≤ (op.run env now queue s).1.table.seq ∧
      ∀ j, (op.run env now queue s).1.table.rows i = some j → j.queue = fromUtf8Lossy c := by
    intro c token htoken
    obtain ⟨i, n, heq, hle, hqueue⟩ := h c token htoken
    refine ⟨i, n, heq, hle.trans htouch.seq_le.1, fun j hrow => ?_⟩
    obtain ⟨j', hrow', hkeep⟩ := htouch.keeps hle hrow
    exact hkeep ▸ hqueue j' hrow'
  intro c token htoken
  by_cases hc : c = queue
  swap
  · rw [tokens_run_of_ne hc] at htoken
    exact hold c token htoken
  subst hc
  cases op with
  | push payload delay | size | counts => exact hold c token htoken
  | delete ticket | release ticket delay =>
    refine hold c token ?_
    rwa [Op.run, tokens_present] at htoken
  | pop visibility =>
    simp only [Op.run, update_self, mem_append] at htoken
    rcases htoken with htoken | htoken
    · exact hold c token htoken
    rcases doPop_cases now c visibility s.table with ⟨-, hpop⟩ | ⟨i, j, hfirst, hpop⟩
    · simp [hpop] at htoken
    · simp only [hpop, map_some, toList_some, mem_singleton] at htoken
      obtain ⟨hrow, hqueue⟩ := first_queue hfirst
      have hle := s.table.le_seq hrow
      refine ⟨i, _, htoken, hle.trans htouch.seq_le.1, fun j' hrow' => ?_⟩
      obtain ⟨j'', hrow'', hkeep⟩ := htouch.keeps hle hrow'
      rw [hrow, some.injEq] at hrow''
      rw [← hkeep, ← hrow'', hqueue]

/-! ### Tables that are alike in one queue -/

/-- **The rows of the queue are the same up to their numbers**: `ρ` pairs the ids that the queue has
had in the two tables, in the same order. -/
structure Alike (q : Bytes) (ρ : Nat → Nat → Prop) (t t' : Table) : Prop where
  order : ∀ {i i' k k'}, ρ i i' → ρ k k' → (i < k ↔ i' < k')
  bound : ∀ {i i'}, ρ i i' → i ≤ t.seq ∧ i' ≤ t'.seq
  same : ∀ {i i'}, ρ i i' → t.rows i = t'.rows i'
  mine : ∀ {i i' j}, ρ i i' → t.rows i = some j → j.queue = q
  left : ∀ {i j}, t.rows i = some j → j.queue = q → ∃ i', ρ i i'
  right : ∀ {i j}, t'.rows i = some j → j.queue = q → ∃ k, ρ k i

variable {ρ : Nat → Nat → Prop}

theorem Alike.symm (h : Alike q ρ t t') : Alike q (flip ρ) t' t where
  order hi hk := (h.order hi hk).symm
  bound hi := (h.bound hi).symm
  same hi := (h.same hi).symm
  mine hi hrow := h.mine hi ((h.same hi).trans hrow)
  left hrow hq := h.right hrow hq
  right hrow hq := h.left hrow hq

theorem Alike.eq_iff (h : Alike q ρ t t') {i i' k k' : Nat} (hi : ρ i i') (hk : ρ k k') :
    i = k ↔ i' = k' := by
  have hlt := h.order hi hk
  have hgt := h.order hk hi
  omega

theorem Alike.refl (q : Bytes) (t : Table) :
    Alike q (fun i i' => i = i' ∧ i ≤ t.seq ∧ ∀ j, t.rows i = some j → j.queue = q) t t where
  order := by
    rintro i _ k _ ⟨rfl, -⟩ ⟨rfl, -⟩
    rfl
  bound := by
    rintro i _ ⟨rfl, hle, -⟩
    exact ⟨hle, hle⟩
  same h := by rw [h.1]
  mine h hrow := h.2.2 _ hrow
  left {i j} hrow hq := by
    refine ⟨i, rfl, t.le_seq hrow, fun j' hrow' => ?_⟩
    rw [hrow, some.injEq] at hrow'
    exact hrow' ▸ hq
  right {i j} hrow hq := by
    refine ⟨i, rfl, t.le_seq hrow, fun j' hrow' => ?_⟩
    rw [hrow, some.injEq] at hrow'
    exact hrow' ▸ hq

theorem Alike.aside (h : Alike q ρ t t') {q' : Bytes} (hq : q' ≠ q) (htouch : Touches q' t t₁) :
    Alike q ρ t₁ t' := by
  have hrows : ∀ i, i ≤ t.seq → (∀ j, t.rows i = some j → j.queue = q) → t₁.rows i = t.rows i := by
    intro i hle hmine
    cases htouch with
    | same => rfl
    | insert => exact rows_insert_of_ne (by omega) _
    | @alter k f hk hf =>
      by_cases hik : i = k
      · subst hik
        cases hrow : t.rows i with
        | none => rw [rows_alter_self, hrow, bind_none]
        | some j => exact absurd ((hk j hrow).symm.trans (hmine j hrow)) hq
      · exact rows_alter_of_ne hik f
  have hpair : ∀ {i i'}, ρ i i' → t₁.rows i = t.rows i := fun hi =>
    hrows _ (h.bound hi).1 fun j hrow => h.mine hi hrow
  refine ⟨h.order, fun hi => ?_, fun hi => (hpair hi).trans (h.same hi), fun hi hrow => ?_,
    fun {i j} hrow hj => ?_, h.right⟩
  · exact ⟨(h.bound hi).1.trans htouch.seq_le.1, (h.bound hi).2⟩
  · exact h.mine hi ((hpair hi).symm.trans hrow)
  · cases htouch with
    | same => exact h.left hrow hj
    | insert hj' =>
      by_cases hi : i = t.seq + 1
      · subst hi
        rw [rows_insert_self, some.injEq] at hrow
        exact absurd (hj'.symm.trans (hrow ▸ hj)) hq
      · rw [rows_insert_of_ne hi] at hrow
        exact h.left hrow hj
    | @alter k f hk hf =>
      by_cases hik : i = k
      · subst hik
        rw [rows_alter_self, bind_eq_some_iff] at hrow
        obtain ⟨j', hrow', hj'⟩ := hrow
        exact absurd ((hk j' hrow').symm.trans ((hf j' j hj').symm.trans hj)) hq
      · rw [rows_alter_of_ne hik] at hrow
        exact h.left hrow hj

theorem Alike.insert (h : Alike q ρ t t') {j : Job} (hj : j.queue = q) :
    Alike q (fun i i' => ρ i i' ∨ (i = t.seq + 1 ∧ i' = t'.seq + 1)) (t.insert j)
      (t'.insert j) where
  order := by
    rintro i i' k k' (hi | ⟨rfl, rfl⟩) (hk | ⟨rfl, rfl⟩)
    · exact h.order hi hk
    · have := h.bound hi
      omega
    · have := h.bound hk
      omega
    · simp
  bound := by
    rintro i i' (hi | ⟨rfl, rfl⟩)
    · exact (h.bound hi).imp le_succ_of_le le_succ_of_le
    · exact ⟨le_rfl, le_rfl⟩
  same := by
    rintro i i' (hi | ⟨rfl, rfl⟩)
    · have := h.bound hi
      rw [rows_insert_of_ne (by omega), rows_insert_of_ne (by omega), h.same hi]
    · rw [rows_insert_self, rows_insert_self]
  mine := by
    rintro i i' j' (hi | ⟨rfl, rfl⟩) hrow
    · have := h.bound hi
      rw [rows_insert_of_ne (by omega)] at hrow
      exact h.mine hi hrow
    · rw [rows_insert_self, some.injEq] at hrow
      exact hrow ▸ hj
  left {i j'} hrow hq := by
    by_cases hi : i = t.seq + 1
    · exact ⟨_, .inr ⟨hi, rfl⟩⟩
    · rw [rows_insert_of_ne hi] at hrow
      exact (h.left hrow hq).imp fun _ => .inl
  right {i j'} hrow hq := by
    by_cases hi : i = t'.seq + 1
    · exact ⟨_, .inr ⟨rfl, hi⟩⟩
    · rw [rows_insert_of_ne hi] at hrow
      exact (h.right hrow hq).imp fun _ => .inl

theorem Alike.alter (h : Alike q ρ t t') {i i' : Nat} (hi : ρ i i') {f : Job → Option Job}
    (hf : ∀ j j', f j = some j' → j'.queue = j.queue) :
    Alike q ρ (t.alter i f) (t'.alter i' f) := by
  have hsame : ∀ {k k'}, ρ k k' → (t.alter i f).rows k = (t'.alter i' f).rows k' := by
    intro k k' hk
    by_cases hki : k = i
    · obtain rfl := (h.eq_iff hk hi).1 hki
      rw [hki, rows_alter_self, rows_alter_self, h.same hi]
    · rw [rows_alter_of_ne hki, rows_alter_of_ne (mt (h.eq_iff hk hi).2 hki), h.same hk]
  refine ⟨h.order, h.bound, hsame, fun {k k' j} hk hrow => ?_, fun {k j} hrow hq => ?_,
    fun {k j} hrow hq => ?_⟩
  · by_cases hki : k = i
    · rw [hki, rows_alter_self, bind_eq_some_iff] at hrow
      obtain ⟨j', hrow', hj'⟩ := hrow
      exact (hf j' j hj').trans (h.mine hi hrow')
    · rw [rows_alter_of_ne hki] at hrow
      exact h.mine hk hrow
  · by_cases hki : k = i
    · exact ⟨i', hki ▸ hi⟩
    · rw [rows_alter_of_ne hki] at hrow
      exact h.left hrow hq
  · by_cases hki : k = i'
    · exact ⟨i, hki ▸ hi⟩
    · rw [rows_alter_of_ne hki] at hrow
      exact h.right hrow hq

theorem Alike.first (h : Alike q ρ t t') {i : Nat} {j : Job}
    (hfirst : t.first (·.ready q now) = some (i, j)) :
    ∃ i', ρ i i' ∧ t'.first (·.ready q now) = some (i', j) := by
  obtain ⟨hrow, hready, hle⟩ := first_eq_some.1 hfirst
  obtain ⟨i', hi⟩ := h.left hrow (Job.queue_of_ready hready)
  refine ⟨i', hi, first_eq_some.2 ⟨(h.same hi).symm.trans hrow, hready, ?_⟩⟩
  intro k' j' hrow' hready'
  obtain ⟨k, hk⟩ := h.right hrow' (Job.queue_of_ready hready')
  have hrank := Job.rank_le.1 (hle k j' ((h.same hk).trans hrow') hready')
  have hlt := h.order hk hi
  refine Job.rank_le.2 ?_
  omega

theorem Alike.first_none (h : Alike q ρ t t') (hnone : t.first (·.ready q now) = none) :
    t'.first (·.ready q now) = none := by
  rw [eq_none_iff_forall_ne_some]
  rintro ⟨i', j⟩ hfirst
  obtain ⟨i, -, hfirst'⟩ := h.symm.first hfirst
  rw [hnone] at hfirst'
  cases hfirst'

theorem pairwise_filter (t : Table) (p : Job → Bool) : (t.filter p).Pairwise (·.1 < ·.1) := by
  refine pairwise_filterMap.2 (pairwise_lt_range.imp fun {i k} hik r hr r' hr' => ?_)
  obtain ⟨j, -, rfl⟩ := map_eq_some_iff.1 hr
  obtain ⟨j', -, rfl⟩ := map_eq_some_iff.1 hr'
  exact hik

theorem forall₂_of_order {l l' : List (Nat × Job)} {R : Nat × Job → Nat × Job → Prop}
    (hl : l.Pairwise (·.1 < ·.1)) (hl' : l'.Pairwise (·.1 < ·.1))
    (horder : ∀ x x' y y', R x x' → R y y' → (x.1 < y.1 ↔ x'.1 < y'.1))
    (hleft : ∀ x ∈ l, ∃ x' ∈ l', R x x') (hright : ∀ x' ∈ l', ∃ x ∈ l, R x x') :
    List.Forall₂ R l l' := by
  induction l generalizing l' with
  | nil =>
    cases l' with
    | nil => exact .nil
    | cons x' l' => exact absurd (hright x' (mem_cons_self ..)) (by simp)
  | cons x l ih =>
    cases l' with
    | nil => exact absurd (hleft x (mem_cons_self ..)) (by simp)
    | cons x' l' =>
      obtain ⟨hx, hl⟩ := pairwise_cons.1 hl
      obtain ⟨hx', hl'⟩ := pairwise_cons.1 hl'
      have hhead : R x x' := by
        obtain ⟨y', hy', hxy'⟩ := hleft x (mem_cons_self ..)
        rcases mem_cons.1 hy' with rfl | hy'
        · exact hxy'
        · obtain ⟨y, hy, hyx'⟩ := hright x' (mem_cons_self ..)
          have hlt := (horder y x' x y' hyx' hxy').2 (hx' y' hy')
          rcases mem_cons.1 hy with rfl | hy
          · exact absurd hlt (lt_irrefl _)
          · exact absurd hlt (Nat.not_lt.2 (Nat.le_of_lt (hx y hy)))
      refine .cons hhead (ih hl hl' (fun y hy => ?_) fun y' hy' => ?_)
      · obtain ⟨y', hy', hyy'⟩ := hleft y (mem_cons_of_mem _ hy)
        have hlt := (horder x x' y y' hhead hyy').1 (hx y hy)
        refine ⟨y', (mem_cons.1 hy').resolve_left ?_, hyy'⟩
        rintro rfl
        exact lt_irrefl _ hlt
      · obtain ⟨y, hy, hyy'⟩ := hright y' (mem_cons_of_mem _ hy')
        have hlt := (horder x x' y y' hhead hyy').2 (hx' y' hy')
        refine ⟨y, (mem_cons.1 hy).resolve_left ?_, hyy'⟩
        rintro rfl
        exact lt_irrefl _ hlt

theorem Alike.filter (h : Alike q ρ t t') {p : Job → Bool} (hp : ∀ j, p j = true → j.queue = q) :
    (t.filter p).map Prod.snd = (t'.filter p).map Prod.snd := by
  have hpairs : List.Forall₂ (fun r r' => ρ r.1 r'.1 ∧ r.2 = r'.2) (t.filter p) (t'.filter p) := by
    refine forall₂_of_order (pairwise_filter t p) (pairwise_filter t' p)
      (fun x x' y y' hx hy => h.order hx.1 hy.1) ?_ ?_
    · rintro ⟨i, j⟩ hmem
      obtain ⟨hrow, hj⟩ := mem_filter.1 hmem
      obtain ⟨i', hi⟩ := h.left hrow (hp j hj)
      exact ⟨(i', j), mem_filter.2 ⟨(h.same hi).symm.trans hrow, hj⟩, hi, rfl⟩
    · rintro ⟨i', j⟩ hmem
      obtain ⟨hrow, hj⟩ := mem_filter.1 hmem
      obtain ⟨i, hi⟩ := h.right hrow (hp j hj)
      exact ⟨(i, j), mem_filter.2 ⟨(h.same hi).trans hrow, hj⟩, hi, rfl⟩
  rw [← forall₂_eq_eq_eq, forall₂_map_left_iff, forall₂_map_right_iff]
  exact hpairs.imp fun _ _ hr => hr.2

theorem Alike.doSize (h : Alike (fromUtf8Lossy queue) ρ t t') :
    doSize now queue t = doSize now queue t' := by
  have hjobs := h.filter (p := (·.ready (fromUtf8Lossy queue) now)) fun j => Job.queue_of_ready
  simpa only [Jobs.doSize, length_map] using congrArg length hjobs

theorem Alike.doCounts (h : Alike (fromUtf8Lossy queue) ρ t t') :
    doCounts now queue t = doCounts now queue t' := by
  have hjobs := h.filter (p := (·.queue = fromUtf8Lossy queue)) fun j => of_decide_eq_true
  rw [Jobs.doCounts, hjobs, ← Jobs.doCounts]

/-! ### Sessions that are alike in one queue -/

/-- Tokens of the same claim of the same row. -/
def Twin (ρ : Nat → Nat → Prop) (k k' : Nat) : Prop :=
  ∃ i i' n, ρ i i' ∧ k = leaseToken i n ∧ k' = leaseToken i' n

/-- **The sessions are alike** in the queue: its rows, and the tokens of its names. -/
structure Session.Alike (q : Bytes) (ρ : Nat → Nat → Prop) (s s' : Session) : Prop where
  rows : Jobs.Alike q ρ s.table s'.table
  tokens : ∀ c, fromUtf8Lossy c = q → List.Forall₂ (Twin ρ) (s.tokens c) (s'.tokens c)

theorem Session.Alike.symm (h : s.Alike q ρ s') : s'.Alike q (flip ρ) s where
  rows := h.rows.symm
  tokens c hc := by
    refine List.Forall₂.flip ((h.tokens c hc).imp ?_)
    rintro k k' ⟨i, i', n, hi, hk, hk'⟩
    exact ⟨i', i, n, hi, hk', hk⟩

theorem Session.Sound.alike (h : s.Sound) (q : Bytes) :
    s.Alike q (fun i i' => i = i' ∧ i ≤ s.table.seq ∧ ∀ j, s.table.rows i = some j → j.queue = q)
      s where
  rows := .refl q s.table
  tokens c hc := by
    refine forall₂_same.2 fun token htoken => ?_
    obtain ⟨i, n, heq, hle, hqueue⟩ := h c token htoken
    exact ⟨i, i, n, ⟨rfl, hle, hc ▸ hqueue⟩, heq, heq⟩

theorem Session.Alike.aside (h : s.Alike q ρ s') (env : Env) (hs : s.Sound)
    (hseq : s.table.seq < 281474976710656) (hq : fromUtf8Lossy queue ≠ q) (now : Nat) (op : Op) :
    (op.run env now queue s).1.Alike q ρ s' where
  rows := h.rows.aside hq (hs.touches env hseq now queue op)
  tokens c hc := by
    have hne : c ≠ queue := fun heq => hq (heq ▸ hc)
    rw [tokens_run_of_ne hne]
    exact h.tokens c hc

theorem Session.Alike.present (h : s.Alike q ρ s') (hseq : s.table.seq < 281474976710656)
    (hseq' : s'.table.seq < 281474976710656) (hq : fromUtf8Lossy queue = q) (ticket : Nat)
    {f : Job → Option Job} (hf : ∀ j j', f j = some j' → j'.queue = j.queue) :
    (s.present queue ticket fun token t => t.present token f).1.Alike q ρ
        (s'.present queue ticket fun token t => t.present token f).1 ∧
      (s.present queue ticket fun token t => t.present token f).2 =
        (s'.present queue ticket fun token t => t.present token f).2 := by
  have htokens := h.tokens queue hq
  by_cases hlt : ticket < (s.tokens queue).length
  · have hlt' : ticket < (s'.tokens queue).length := htokens.length_eq ▸ hlt
    obtain ⟨i, i', n, hi, hk, hk'⟩ := htokens.get hlt hlt'
    have hbound := h.rows.bound hi
    have hhas : s'.table.has (leaseToken i' n) = s.table.has (leaseToken i n) := by
      rw [has_leaseToken (hbound.1.trans_lt hseq), has_leaseToken (hbound.2.trans_lt hseq'),
        h.rows.same hi]
    rw [get_eq_getElem] at hk hk'
    simp only [Session.present, getElem?_eq_getElem hlt, getElem?_eq_getElem hlt', hk,
      hk', Table.present, hhas, leaseParts_leaseToken (hbound.1.trans_lt hseq),
      leaseParts_leaseToken (hbound.2.trans_lt hseq')]
    split
    · exact ⟨⟨h.rows.alter hi hf, h.tokens⟩, rfl⟩
    · exact ⟨h, rfl⟩
  · have hlt' : ¬ ticket < (s'.tokens queue).length := htokens.length_eq ▸ hlt
    simp only [Session.present, getElem?_eq_none (Nat.not_lt.1 hlt),
      getElem?_eq_none (Nat.not_lt.1 hlt')]
    exact ⟨h, trivial⟩

/-- A call on the queue, on both sides. -/
theorem Session.Alike.step (h : s.Alike q ρ s') (env : Env)
    (hseq : s.table.seq < 281474976710656) (hseq' : s'.table.seq < 281474976710656)
    (hq : fromUtf8Lossy queue = q) (now : Nat) (op : Op) :
    ∃ ρ', (op.run env now queue s).1.Alike q ρ' (op.run env now queue s').1 ∧
      (op.run env now queue s).2 = (op.run env now queue s').2 := by
  cases op with
  | push payload delay =>
    simp only [Op.run, doPush]
    split
    · refine ⟨_, ⟨h.rows.insert hq, fun c hc => ?_⟩, rfl⟩
      exact (h.tokens c hc).imp fun k k' ⟨i, i', n, hi, hk⟩ => ⟨i, i', n, .inl hi, hk⟩
    · exact ⟨ρ, h, rfl⟩
  | pop visibility =>
    subst hq
    refine ⟨ρ, ?_⟩
    simp only [Op.run]
    rcases doPop_cases now queue visibility s.table with ⟨hnone, hpop⟩ | ⟨i, j, hfirst, hpop⟩
    · have hpop' : doPop now queue visibility s'.table = (s'.table, none) := by
        rw [doPop, h.rows.first_none hnone]
      simp only [hpop, hpop', map_none, toList_none, append_nil,
        update_eq_self]
      exact ⟨h, trivial⟩
    · obtain ⟨i', hi, hfirst'⟩ := h.rows.first hfirst
      have hpop' : doPop now queue visibility s'.table =
          (s'.table.alter i' fun j => some (j.claim now visibility),
            some ⟨leaseToken i' (j.attempts + 1), (j.attempts + 1) % 4294967296, j.payload⟩) := by
        rw [doPop, hfirst']
      simp only [hpop, hpop', map_some, toList_some]
      refine ⟨⟨h.rows.alter hi fun j j' hj => ?_, fun c hc => ?_⟩, trivial⟩
      · cases hj
        rfl
      · by_cases hcq : c = queue
        · subst hcq
          simp only [update_self]
          exact rel_append (h.tokens c hc) (.cons ⟨i, i', _, hi, rfl, rfl⟩ .nil)
        · simp only [update_of_ne hcq]
          exact h.tokens c hc
  | delete ticket =>
    exact ⟨ρ, h.present hseq hseq' hq ticket fun j j' hj => by cases hj⟩
  | release ticket delay => exact ⟨ρ, h.present hseq hseq' hq ticket Job.queue_of_giveBack⟩
  | size => exact ⟨ρ, h, congrArg Out.size (hq ▸ h.rows).doSize⟩
  | counts => exact ⟨ρ, h, congrArg Out.counts (hq ▸ h.rows).doCounts⟩

/-- **Sessions that are alike in the queue of `b` cannot be told apart by the operations on `b`.**
-/
theorem Session.Alike.answers {b : Bytes} {ops : List (Nat × Bytes × Op)}
    (h : s.Alike (fromUtf8Lossy b) ρ s') (hs : s.Sound) (hs' : s'.Sound)
    (hseq : s.table.seq + ops.length < 281474976710656)
    (hseq' : s'.table.seq + ops.length < 281474976710656) :
    answers env b ops s = answers env b ops s' := by
  induction ops generalizing s s' ρ with
  | nil => rfl
  | cons o ops ih =>
    obtain ⟨now, queue, op⟩ := o
    rw [length_cons] at hseq hseq'
    have hlt : s.table.seq < 281474976710656 := by omega
    have hlt' : s'.table.seq < 281474976710656 := by omega
    have hgrow := (hs.touches env hlt now queue op).seq_le.2
    have hgrow' := (hs'.touches env hlt' now queue op).seq_le.2
    have hrun := hs.run env hlt now queue op
    have hrun' := hs'.run env hlt' now queue op
    simp only [Jobs.answers]
    by_cases hq : fromUtf8Lossy queue = fromUtf8Lossy b
    · obtain ⟨ρ', halike, hout⟩ := h.step env hlt hlt' hq now op
      rw [hout, ih halike hrun hrun' (by omega) (by omega)]
    · have hne : queue ≠ b := fun heq => hq (heq ▸ rfl)
      have halike := ((h.aside env hs hlt hq now op).symm.aside env hs' hlt' hq
        now op).symm
      rw [if_neg hne, if_neg hne, ih halike hrun hrun' (by omega) (by omega)]

theorem Session.Sound.after (hs : s.Sound) (env : Env) (ops : List (Nat × Bytes × Op))
    (hseq : s.table.seq + ops.length < 281474976710656) :
    (after env ops s).Sound ∧ (after env ops s).table.seq ≤ s.table.seq + ops.length := by
  induction ops generalizing s with
  | nil => exact ⟨hs, le_rfl⟩
  | cons o ops ih =>
    obtain ⟨now, queue, op⟩ := o
    rw [length_cons] at hseq ⊢
    have hlt : s.table.seq < 281474976710656 := by omega
    have hgrow := (hs.touches env hlt now queue op).seq_le.2
    obtain ⟨hsound, hle⟩ := ih (hs.run env hlt now queue op) (by omega)
    exact ⟨hsound, by simp only [Jobs.after]; omega⟩

end

/-- A table with one job that is ready. -/
def Table.single (q : Bytes) : Table := Table.empty.insert ⟨q, [], 0, 0, none, 0, 0⟩

theorem rows_single {q : Bytes} {i : Nat} {j : Job} (h : (Table.single q).rows i = some j) :
    i = 1 ∧ j = ⟨q, [], 0, 0, none, 0, 0⟩ := by
  by_cases hi : i = Table.empty.seq + 1
  · rw [Table.single, hi, rows_insert_self, some.injEq] at h
    exact ⟨hi, h.symm⟩
  · rw [Table.single, rows_insert_of_ne hi] at h
    cases h

theorem first_single (q : Bytes) :
    (Table.single q).first (·.ready q 0) = some (1, ⟨q, [], 0, 0, none, 0, 0⟩) := by
  refine first_eq_some.2 ⟨rows_insert_self _, by simp [Job.ready, Job.due, Job.unreserved],
    fun k j hrow _ => ?_⟩
  obtain ⟨rfl, rfl⟩ := rows_single hrow
  exact le_rfl

theorem first_single_claimed (q : Bytes) :
    ((Table.single q).alter 1 fun j => some (j.claim 0 1)).first (·.ready q 0) = none := by
  refine first_eq_none.2 fun i j hrow => ?_
  by_cases hi : i = 1
  · subst hi
    obtain ⟨j', -, hj⟩ := bind_eq_some_iff.1 ((rows_alter_self _).symm.trans hrow)
    cases hj
    simp [Job.ready, Job.claim, Job.unreserved, asI64]
  · rw [rows_alter_of_ne hi] at hrow
    exact absurd (rows_single hrow).1 hi

theorem apart_iff (env : Env) (a b : Bytes) :
    Apart env a b ↔ fromUtf8Lossy a ≠ fromUtf8Lossy b := by
  constructor
  · intro h htext
    have hpop := h (.single (fromUtf8Lossy b)) [] 0 (.pop 1) [(0, b, .pop 1)]
      (by simp [Table.single, Table.insert, Table.empty])
    simp [answers, after, Op.run, doPop, htext, first_single, first_single_claimed] at hpop
  · intro hne t before now op later hseq
    have hstart : Session.Sound ⟨t, fun _ => []⟩ := fun c token htoken => by cases htoken
    obtain ⟨hs, hle⟩ := hstart.after env before (by simp only; omega)
    intro s
    change s.Sound at hs
    change s.table.seq ≤ t.seq + before.length at hle
    have hlt : s.table.seq < 281474976710656 := by omega
    have hgrow := (hs.touches env hlt now a op).seq_le.2
    exact ((hs.alike (fromUtf8Lossy b)).aside env hs hlt hne now op).answers
      (hs.run env hlt now a op) hs (by omega) (by omega)

end Jobs

/-- **Keys and queue names are apart in a database exactly when their texts differ.** -/
theorem names_apart_iff (env : Env) (a b : Bytes) :
    (Cached.Apart env a b ↔ fromUtf8Lossy a ≠ fromUtf8Lossy b) ∧
      (Jobs.Apart env a b ↔ fromUtf8Lossy a ≠ fromUtf8Lossy b) :=
  ⟨Cached.apart_iff env a b, Jobs.apart_iff env a b⟩

/-- A value that is set under the byte `ff` is found under `fe`, where there was none, and a job
that is pushed under the one is popped under the other. -/
theorem names_merge : Cached.answers (plainEnv false) [254] [(0, [254], .get)]
        (Cached.Op.run (plainEnv false) 0 [255] (fun _ => none) (.set [49] 0)).1 =
      [.value (.ok (some [49]))] ∧
    Cached.answers (plainEnv false) [254] [(0, [254], .get)] (fun _ => none) = [.value (.ok none)] ∧
    Jobs.answers (plainEnv false) [254] [(0, [254], .pop 60)]
        (Jobs.Op.run (plainEnv false) 0 [255] ⟨.empty, fun _ => []⟩ (.push [49] 0)).1 =
      [.job (some (1, [49]))] ∧
    Jobs.answers (plainEnv false) [254] [(0, [254], .pop 60)] ⟨.empty, fun _ => []⟩ =
      [.job none] := by
  exact ⟨rfl, rfl, rfl, rfl⟩

end Askr.Sql
