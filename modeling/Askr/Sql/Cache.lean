import Askr.Data.Sqlite
import Askr.Kv.Shelf

/-!
# The cache in a database

`cache_sql.rs`: the calls of `cache.rs`, over a table of SQLite. A statement is a function of the
clock and the table (`doGet` to `doTouch`); a key reaches it as text, through
`String::from_utf8_lossy`. When the cache in shared memory is enabled a `get` asks it first and
fills it, and the other calls write the table and then warm or invalidate it.

The public functions are programs whose actions are single statements and single calls of the shared
cache. `SQLITE_LIMIT_LENGTH` is a parameter (`Env.takes`), as are the applications that have an
`app_id`; any other failure of a statement is left out.
-/

namespace Askr.Sql

open Conc Bytes Sqlite Function Prog

/-! ## Statements -/

/-- What is fixed: the cache in shared memory and whether it is enabled, the applications with an
`app_id`, and what rows the database takes. -/
structure Env where
  kv : Kv.Config
  l1 : Bool
  isNamed : Ns.App → Bool
  doubles : Doubles
  takes : Bytes → Cell doubles → Bool

/-- A row of `askr_cache`. -/
structure Row (d : Doubles) where
  value : Cell d
  expiresAt : Deadline

/-- The table, by its primary key. -/
abbrev Table (d : Doubles) := Bytes → Option (Row d)

inductive SqlError where
  | tooBig
  | columnType
deriving DecidableEq

def unwrapOr {α : Type} (r : Except SqlError α) (a : α) : α :=
  match r with
  | .ok b => b
  | .error _ => a

def valueToBytes {d : Doubles} : Cell d → Bytes
  | .blob b => b
  | .text s => s
  | .integer n => intBytes n
  | .real x => d.text x

section
variable {d : Doubles}

/-- The row, unless its deadline has passed. -/
def Table.live (t : Table d) (now : Nat) (key : Bytes) : Option (Row d) :=
  (t key).filter fun row => !row.expiresAt.passed now

/-- The rest of a row's time, for the shared cache. A deadline that is not an integer cannot be
read as one. -/
def restOf (now : Nat) : Deadline → Except SqlError Nat
  | .never => .ok 0
  | .due t => .ok (max (t - now) 1)
  | .beyond => .error .columnType

def doGetWithTtl (now : Nat) (key : Bytes) (t : Table d) : Except SqlError (Option (Bytes × Nat)) :=
  match t.live now (fromUtf8Lossy key) with
  | none => .ok none
  | some row => (restOf now row.expiresAt).map fun ttl => some (valueToBytes row.value, ttl)

def doGet (now : Nat) (key : Bytes) (t : Table d) : Except SqlError (Option Bytes) :=
  .ok ((t.live now (fromUtf8Lossy key)).map fun row => valueToBytes row.value)

end

section
variable (env : Env)

/-- A row is put into the table, if the database takes it. -/
def upsert (key : Bytes) (row : Row env.doubles) (t : Table env.doubles) :
    Table env.doubles × Except SqlError Unit :=
  if env.takes key row.value then (update t key (some row), .ok ())
  else (t, .error .tooBig)

def doSet (now : Nat) (key val : Bytes) (ttl : Nat) (t : Table env.doubles) :
    Table env.doubles × Except SqlError Unit :=
  upsert env (fromUtf8Lossy key) ⟨.blob val, deadline now ttl⟩ t

/-- `do_add`: a row that is there and has not expired is left. -/
def doAdd (now : Nat) (key val : Bytes) (ttl : Nat) (t : Table env.doubles) :
    Table env.doubles × Except SqlError Bool :=
  if (t.live now (fromUtf8Lossy key)).isSome then (t, .ok false)
  else
    let out := upsert env (fromUtf8Lossy key) ⟨.blob val, deadline now ttl⟩ t
    (out.1, out.2.map fun _ => true)

def doDelete (key : Bytes) (t : Table env.doubles) : Table env.doubles × Except SqlError Bool :=
  (update t (fromUtf8Lossy key) none, .ok (t (fromUtf8Lossy key)).isSome)

/-- The row `do_increment` leaves. On a conflict it sets the value alone: an expired row counts from
`0` and stays expired. -/
def countRow (now : Nat) (delta : Int) (ttl : Nat) : Option (Row env.doubles) → Row env.doubles
  | none => ⟨.integer delta, deadline now ttl⟩
  | some row =>
    let old := if row.expiresAt.passed now then 0 else row.value.castInteger
    ⟨addI64 env.doubles old delta, row.expiresAt⟩

def doIncrement (now : Nat) (key : Bytes) (delta : Int) (ttl : Nat) (t : Table env.doubles) :
    Table env.doubles × Except SqlError Int :=
  let row := countRow env now delta ttl (t (fromUtf8Lossy key))
  let out := upsert env (fromUtf8Lossy key) row t
  (out.1, out.2.map fun _ => row.value.castInteger)

def doTouch (now : Nat) (key : Bytes) (ttl : Nat) (t : Table env.doubles) :
    Table env.doubles × Except SqlError Bool :=
  match t.live now (fromUtf8Lossy key) with
  | none => (t, .ok false)
  | some row =>
    (update t (fromUtf8Lossy key) (some { row with expiresAt := deadline now ttl }),
      .ok true)

end

/-! ## What a statement leaves

A statement works on the row of its key, and every row it writes has a deadline that it computed, or
the one that the row had. -/

section
variable {env : Env} {now ttl : Nat} {key k val : Bytes} {delta : Int} {t : Table env.doubles}
  {row : Row env.doubles}

theorem upsert_other (h : k ≠ key) : (upsert env key row t).1 k = t k := by
  rw [upsert]
  split
  · exact update_of_ne h _ _
  · rfl

theorem doAdd_other (h : k ≠ fromUtf8Lossy key) : (doAdd env now key val ttl t).1 k = t k := by
  rw [doAdd]
  split
  · rfl
  · exact upsert_other h

theorem doAdd_row (h : unwrapOr (doAdd env now key val ttl t).2 false = true) :
    (doAdd env now key val ttl t).1 (fromUtf8Lossy key) = some ⟨.blob val, deadline now ttl⟩ := by
  rw [doAdd] at h ⊢
  split at h
  · cases h
  · rename_i hfree
    rw [if_neg hfree]
    rw [upsert] at h ⊢
    split at h
    · rename_i htakes
      rw [if_pos htakes]
      exact update_self ..
    · cases h

theorem doDelete_other (h : k ≠ fromUtf8Lossy key) : (doDelete env key t).1 k = t k :=
  update_of_ne h _ _

theorem doIncrement_other (h : k ≠ fromUtf8Lossy key) :
    (doIncrement env now key delta ttl t).1 k = t k :=
  upsert_other h

theorem doTouch_other (h : k ≠ fromUtf8Lossy key) : (doTouch env now key ttl t).1 k = t k := by
  rw [doTouch]
  split
  · rfl
  · exact update_of_ne h _ _

/-- Every deadline of the table is one of those. -/
def Deadlines {d : Doubles} (Q : Deadline → Prop) (t : Table d) : Prop :=
  ∀ k row, t k = some row → Q row.expiresAt

variable {Q : Deadline → Prop}

theorem Deadlines.update (ht : Deadlines Q t) (hrow : Q row.expiresAt) :
    Deadlines Q (update t key (some row)) := by
  intro k row' h
  by_cases hk : k = key
  · rw [hk, update_self, Option.some.injEq] at h
    exact h ▸ hrow
  · rw [update_of_ne hk] at h
    exact ht k row' h

theorem Deadlines.upsert (ht : Deadlines Q t) (hrow : Q row.expiresAt) :
    Deadlines Q (upsert env key row t).1 := by
  rw [Sql.upsert]
  split
  · exact ht.update hrow
  · exact ht

theorem Deadlines.doSet (ht : Deadlines Q t) (h : Q (deadline now ttl)) :
    Deadlines Q (doSet env now key val ttl t).1 :=
  ht.upsert h

theorem Deadlines.doAdd (ht : Deadlines Q t) (h : Q (deadline now ttl)) :
    Deadlines Q (doAdd env now key val ttl t).1 := by
  rw [Sql.doAdd]
  split
  · exact ht
  · exact ht.upsert h

theorem Deadlines.doDelete (ht : Deadlines Q t) : Deadlines Q (doDelete env key t).1 := by
  intro k row hrow
  by_cases hk : k = fromUtf8Lossy key
  · rw [hk, Sql.doDelete] at hrow
    simp at hrow
  · rw [doDelete_other hk] at hrow
    exact ht k row hrow

theorem Deadlines.doIncrement (ht : Deadlines Q t) (h : Q (deadline now ttl)) :
    Deadlines Q (doIncrement env now key delta ttl t).1 := by
  refine ht.upsert ?_
  cases hold : t (fromUtf8Lossy key) with
  | none => exact h
  | some row => exact ht _ row hold

theorem Deadlines.doTouch (ht : Deadlines Q t) (h : Q (deadline now ttl)) :
    Deadlines Q (doTouch env now key ttl t).1 := by
  rw [Sql.doTouch]
  split
  · exact ht
  · exact ht.update h

end

/-! ## The public functions -/

/-- The cache in shared memory, which has the clock, and the database. -/
structure Tiers (env : Env) where
  mem : Kv.Mem
  db : Table env.doubles

/-- `unixepoch()`, and the clock of the shared cache in seconds. -/
def Tiers.now {env : Env} (s : Tiers env) : Nat := s.mem.nowSecs

section
variable (env : Env)

def l2Key (current : Option Ns.App) (key : Bytes) : Bytes := Ns.key (current.filter env.isNamed) key

def withConn {α : Type} (f : Nat → Table env.doubles → Table env.doubles × α) :
    Prog (Tiers env) α :=
  .atom fun s => ({ s with db := (f s.now s.db).1 }, .ret (f s.now s.db).2)

/-- One call of the cache in shared memory. -/
def front {α : Type} (p : Prog Kv.Mem α) : Prog (Tiers env) α :=
  .atom fun s => ({ s with mem := (p.run s.mem).1 }, .ret (p.run s.mem).2)

/-- What comes after a statement, when the cache in shared memory is enabled. -/
def afterwards {α : Type} (p : Prog Kv.Mem Bool) (a : α) : Prog (Tiers env) α :=
  if env.l1 then (front env p).map fun _ => a else .ret a

@[simp] theorem run_withConn {α : Type}
    (f : Nat → Table env.doubles → Table env.doubles × α) (s : Tiers env) :
    (withConn env f).run s = ({ s with db := (f s.now s.db).1 }, (f s.now s.db).2) := rfl

@[simp] theorem run_front {α : Type} (p : Prog Kv.Mem α) (s : Tiers env) :
    (front env p).run s = ({ s with mem := (p.run s.mem).1 }, (p.run s.mem).2) := rfl

theorem run_afterwards {α : Type} (p : Prog Kv.Mem Bool) (a : α) (s : Tiers env) :
    (afterwards env p a).run s = (if env.l1 then { s with mem := (p.run s.mem).1 } else s, a) := by
  rw [afterwards]
  split
  · rw [run_map, run_front]
  · rfl

variable (current : Option Ns.App) (key : Bytes)

def get : Prog (Tiers env) (Option Bytes) :=
  if env.l1 then
    (front env (Kv.get env.kv (Ns.key current key))).bind fun
      | some v => .ret (some v)
      | none =>
        (withConn env fun now t => (t, doGetWithTtl now (l2Key env current key) t)).bind fun r =>
          match unwrapOr r none with
          | some (v, ttl) =>
            (front env (Kv.set env.kv (Ns.key current key) v ttl)).map fun _ => some v
          | none => .ret none
  else
    (withConn env fun now t => (t, doGet now (l2Key env current key) t)).map fun r =>
      unwrapOr r none

variable {env current key} in
theorem get_hit (hl1 : env.l1 = true) {s : Tiers env} {mem : Kv.Mem} {v : Bytes}
    (h : (Kv.get env.kv (Ns.key current key)).run s.mem = (mem, some v)) :
    (get env current key).run s = (⟨mem, s.db⟩, some v) := by
  rw [get, if_pos hl1, run_bind, run_front, h]
  rfl

variable {env current key} in
theorem get_miss (hl1 : env.l1 = true) {s : Tiers env} {mem : Kv.Mem}
    (h : (Kv.get env.kv (Ns.key current key)).run s.mem = (mem, none)) :
    (get env current key).run s =
      match unwrapOr (doGetWithTtl mem.nowSecs (l2Key env current key) s.db) none with
      | some (v, ttl) =>
        (⟨((Kv.set env.kv (Ns.key current key) v ttl).run mem).1, s.db⟩, some v)
      | none => (⟨mem, s.db⟩, none) := by
  rw [get, if_pos hl1, run_bind, run_front, h]
  simp only [run_bind, run_withConn, Tiers.now]
  cases unwrapOr (doGetWithTtl mem.nowSecs (l2Key env current key) s.db) none with
  | none => rfl
  | some p => rw [run_map, run_front]

def set (val : Bytes) (ttl : Nat) : Prog (Tiers env) Bool :=
  (withConn env fun now => doSet env now (l2Key env current key) val ttl).bind fun r =>
    match r with
    | .ok _ => afterwards env (Kv.set env.kv (Ns.key current key) val ttl) true
    | .error _ => .ret false

def add (val : Bytes) (ttl : Nat) : Prog (Tiers env) Bool :=
  (withConn env fun now => doAdd env now (l2Key env current key) val ttl).bind fun r =>
    if unwrapOr r false then
      afterwards env (Kv.set env.kv (Ns.key current key) val ttl) true
    else afterwards env (Kv.delete env.kv (Ns.key current key)) false

def delete : Prog (Tiers env) Bool :=
  (withConn env fun _ => doDelete env (l2Key env current key)).bind fun r =>
    afterwards env (Kv.delete env.kv (Ns.key current key)) (unwrapOr r false)

def increment (delta : Int) (ttl : Nat) : Prog (Tiers env) Int :=
  (withConn env fun now => doIncrement env now (l2Key env current key) delta ttl).bind fun r =>
    afterwards env (Kv.delete env.kv (Ns.key current key)) (unwrapOr r 0)

def touch (ttl : Nat) : Prog (Tiers env) Bool :=
  (withConn env fun now => doTouch env now (l2Key env current key) ttl).bind fun r =>
    afterwards env (Kv.delete env.kv (Ns.key current key)) (unwrapOr r false)

end

def code (env : Env) (c : Kv.Call) : Prog (Tiers env) Kv.Res :=
  match c.req with
  | .get => (get env c.app c.name).map .value
  | .set val ttl => (set env c.app c.name val ttl).map .flag
  | .add val ttl => (add env c.app c.name val ttl).map .flag
  | .delete => (delete env c.app c.name).map .flag
  | .touch ttl => (touch env c.app c.name ttl).map .flag
  | .increment delta ttl => (increment env c.app c.name delta ttl).map .count

/-- The text that a call's row has as its key. -/
def rowKey (env : Env) (c : Kv.Call) : Bytes := fromUtf8Lossy (l2Key env c.app c.name)

/-- What the row of the key holds: its value, if it is there and has not expired. -/
def Tiers.holds {env : Env} (s : Tiers env) (key : Bytes) : Option Bytes :=
  (s.db.live s.now key).map fun row => valueToBytes row.value

/-- The clock moves on by some milliseconds. -/
def tick {env : Env} (d : Nat) (s : Tiers env) : Tiers env := { s with mem := Kv.tick d s.mem }

/-- A database that takes every row and never prints a floating-point number, with sixteen small
slots in front of it and no application with an `app_id`. -/
def plainEnv (l1 : Bool) : Env :=
  { kv := .init (fun _ => 0) 16 16
    l1
    isNamed := fun _ => false
    doubles := ⟨Unit, fun _ => (), fun _ _ => (), fun _ => 0, fun _ => []⟩
    takes := fun _ _ => true }

end Askr.Sql
