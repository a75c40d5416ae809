import Askr.Kv.Counter
import Askr.Kv.Evict
import Askr.Sql.Cache

/-!
# Counters on both backends

The same increments of one key, on the cache in shared memory and on the database. The two return
the same until the counter expires. Shared memory then writes a new deadline with the new count; the
upsert of the database sets the deadline of a row only when it inserts it, so the row stays expired,
and every later increment starts from `0` again.

From there on the two agree only as long as shared memory starts from `0` as well: the counter has
expired again, or is at `0` (`counters_agree_iff`).
-/

namespace Askr.Sql

open Conc Bytes Sqlite

/-- The two backends, at one time. -/
structure Both (env : Env) where
  shm : Kv.Mem
  sql : Tiers env

/-- One step of a run on one key. -/
inductive CountOp where
  | increment (delta : Int) (ttl : Nat)
  | tick (d : Nat)

section
variable (g : Kv.Config) (env : Env) (app : Option Ns.App) (name : Bytes)

/-- The call that is made on both. -/
def countCall (delta : Int) (ttl : Nat) : Kv.Call := ⟨app, name, .increment delta ttl⟩

/-- Each step is taken on both backends. -/
def Both.step (s : Both env) : CountOp → Both env
  | .increment delta ttl =>
    ⟨((Kv.code g (countCall app name delta ttl)).run s.shm).1,
      ((code env (countCall app name delta ttl)).run s.sql).1⟩
  | .tick d => ⟨Kv.tick d s.shm, tick d s.sql⟩

/-- The two return the same. -/
def Both.Agrees (s : Both env) : CountOp → Prop
  | .increment delta ttl =>
    ((Kv.code g (countCall app name delta ttl)).run s.shm).2 =
      ((code env (countCall app name delta ttl)).run s.sql).2
  | .tick _ => True

/-- The count that an increment in shared memory starts from. -/
def startOf (now : Nat) : Option Kv.Held → Int
  | none => 0
  | some e => if e.expired now then 0 else Kv.counterOf e.val

def countFrom (key : Bytes) (s : Kv.Mem) : Int := startOf s.nowSecs (s.shelf g key .small)

/-- An increment that evicts nothing, is not at the second at which the counter expires, and stays
in the range of an `i64`; the clock and the deadline are in range too. -/
structure Ordinary (key : Bytes) (s : Kv.Mem) (delta : Int) (ttl : Nat) : Prop where
  room : Kv.HasRoom g .small key s
  off : ∀ e ∈ s.shelf g key .small, e.expiresAt ≠ s.nowSecs
  delta_ok : InI64 delta
  sum_ok : InI64 (countFrom g key s + delta)
  clock_ok : s.nowSecs < 9223372036854775808
  deadline_ok : s.nowSecs + ttl < U64

instance (key : Bytes) (s : Kv.Mem) (delta : Int) (ttl : Nat) :
    Decidable (Ordinary g key s delta ttl) :=
  decidable_of_iff (Kv.HasRoom g .small key s ∧
      (∀ e ∈ s.shelf g key .small, e.expiresAt ≠ s.nowSecs) ∧ InI64 delta ∧
      InI64 (countFrom g key s + delta) ∧ s.nowSecs < 9223372036854775808 ∧
      s.nowSecs + ttl < U64)
    ⟨fun ⟨a, b, c, d, e, f⟩ => ⟨a, b, c, d, e, f⟩, fun ⟨a, b, c, d, e, f⟩ => ⟨a, b, c, d, e, f⟩⟩

/-- Every increment is an ordinary one. -/
def Both.Meets (s : Both env) : CountOp → Prop
  | .increment delta ttl => Ordinary g (Ns.key app name) s.shm delta ttl
  | .tick _ => True

/-- An increment that finds its row expired starts from `0` in shared memory too. -/
def Both.Restarts (s : Both env) : CountOp → Prop
  | .increment _ _ =>
    ((s.sql.db (fromUtf8Lossy (l2Key env app name))).any fun row =>
      row.expiresAt.passed s.sql.now) = true → countFrom g (Ns.key app name) s.shm = 0
  | .tick _ => True

instance (s : Both env) : (op : CountOp) → Decidable (s.Agrees g env app name op)
  | .increment .. => inferInstanceAs (Decidable (_ = _))
  | .tick _ => .isTrue trivial

instance (s : Both env) : (op : CountOp) → Decidable (s.Meets g env app name op)
  | .increment .. => inferInstanceAs (Decidable (Ordinary ..))
  | .tick _ => .isTrue trivial

instance (s : Both env) : (op : CountOp) → Decidable (s.Restarts g env app name op)
  | .increment .. => inferInstanceAs (Decidable (_ → _))
  | .tick _ => .isTrue trivial

/-- Both backends without the key. -/
def Both.start (now : Nat) (db : Table env.doubles) : Both env :=
  ⟨.init now, ⟨.init now, db⟩⟩

end

/-! ## The two deadlines -/

/-- The deadline of the row and that in shared memory pass together, except at that very second. -/
def SameDeadline (d : Deadline) (expiresAt : Nat) : Prop :=
  ∀ now < 9223372036854775808, expiresAt ≠ now →
    d.passed now = (decide (expiresAt ≠ 0) && decide (expiresAt < now))

theorem kvDeadline_eq {now ttl : Nat} (h : now + ttl < U64) :
    Kv.deadline now ttl = if ttl > 0 then now + ttl else 0 := by
  rw [Kv.deadline, u64Add, Nat.mod_eq_of_lt h]

theorem sameDeadline {now ttl : Nat} (h : now + ttl < U64) :
    SameDeadline (deadline now ttl) (Kv.deadline now ttl) := by
  intro now' hnow' hne
  rw [kvDeadline_eq h] at hne ⊢
  rw [U64] at h
  rw [passed_deadline (by omega) hnow']
  by_cases hpos : ttl > 0
  · rw [if_pos hpos] at hne ⊢
    rw [← Bool.decide_and]
    exact decide_eq_decide.2 (by omega)
  · rw [if_neg hpos]
    simp [hpos]

/-! ## One increment -/

section
variable {g : Kv.Config} {env : Env} {app : Option Ns.App} {name : Bytes}

/-- What the two hold of a counter: nothing, the same count with the same deadline, or, once it has
expired, a row that stays expired and some count in shared memory. -/
inductive Counters (now : Nat) : Option Kv.Held → Option (Row env.doubles) → Prop where
  | absent : Counters now none none
  | same {n : Int} {expiresAt : Nat} {d : Deadline} : InI64 n → SameDeadline d expiresAt →
      Counters now (some ⟨intBytes n, expiresAt⟩) (some ⟨.integer n, d⟩)
  | apart {n m : Int} {expiresAt t : Nat} : InI64 n → t ≤ now →
      Counters now (some ⟨intBytes n, expiresAt⟩) (some ⟨.integer m, .due t⟩)

theorem Counters.mono {now now' : Nat} {o : Option Kv.Held} {row : Option (Row env.doubles)}
    (h : Counters now o row) (hle : now ≤ now') : Counters now' o row := by
  cases h with
  | absent => exact .absent
  | same hn hd => exact .same hn hd
  | apart hn ht => exact .apart hn (ht.trans hle)

theorem counted_fst {now : Nat} (ttl : Nat) {delta : Int} {o : Option Kv.Held}
    (hsum : InI64 (startOf now o + delta)) :
    (Kv.Shelf.counted now delta ttl o).1 = startOf now o + delta := by
  cases o with
  | none => simp [Kv.Shelf.counted, startOf]
  | some e =>
    rw [Kv.Shelf.counted, startOf] at *
    split at hsum <;> rename_i hexp
    · rw [if_pos hexp, if_pos hexp, Kv.satAddI64_eq hsum]
    · rw [if_neg hexp, if_neg hexp, Kv.satAddI64_eq hsum]

theorem addI64_of_mem {d : Doubles} {a b : Int} (h : InI64 (a + b)) :
    addI64 d a b = .integer (a + b) := if_pos h

theorem Deadline.eq_due {d : Deadline} {now : Nat} (h : d.passed now = true) :
    ∃ t, d = .due t ∧ t ≤ now := by
  cases d with
  | never => cases h
  | due t => exact ⟨t, rfl, of_decide_eq_true h⟩
  | beyond => cases h

theorem countRow_of_passed {now ttl : Nat} {delta : Int} (row : Row env.doubles)
    (h : row.expiresAt.passed now = true) (hdelta : InI64 delta) :
    countRow env now delta ttl (some row) = ⟨.integer delta, row.expiresAt⟩ := by
  rw [countRow, if_pos h, addI64_of_mem (by rwa [Int.zero_add]), Int.zero_add]

/-- **One increment on both.** The counters stay as they were to each other, and the two return the
same unless the row has expired and shared memory does not start from `0`. -/
theorem Counters.increment {now ttl : Nat} {delta : Int} {o : Option Kv.Held}
    {row : Option (Row env.doubles)} (h : Counters now o row)
    (hoff : ∀ e ∈ o, e.expiresAt ≠ now) (hdelta : InI64 delta)
    (hsum : InI64 (startOf now o + delta)) (hnow : now < 9223372036854775808)
    (hdeadline : now + ttl < U64) :
    Counters now (some ⟨intBytes (Kv.Shelf.counted now delta ttl o).1,
        (Kv.Shelf.counted now delta ttl o).2⟩) (some (countRow env now delta ttl row)) ∧
      ((Kv.Shelf.counted now delta ttl o).1 = (countRow env now delta ttl row).value.castInteger ↔
        ((row.any fun r => r.expiresAt.passed now) = true → startOf now o = 0)) := by
  have hcount := counted_fst ttl hsum
  cases h with
  | absent =>
    refine ⟨.same hdelta (sameDeadline hdeadline), ?_⟩
    simp [countRow, Kv.Shelf.counted, Cell.castInteger]
  | @same n expiresAt d hn hd =>
    have hexp : d.passed now = Kv.Held.expired ⟨intBytes n, expiresAt⟩ now :=
      hd now hnow (hoff _ rfl)
    cases hp : d.passed now with
    | true =>
      rw [hp] at hexp
      obtain ⟨t, rfl, ht⟩ := Deadline.eq_due hp
      have hstart : startOf now (some ⟨intBytes n, expiresAt⟩) = 0 := if_pos hexp.symm
      rw [countRow_of_passed _ hp hdelta, hcount, hstart, Int.zero_add]
      exact ⟨.apart hdelta ht, iff_of_true rfl fun _ => rfl⟩
    | false =>
      rw [hp] at hexp
      have hlive : ¬ Kv.Held.expired ⟨intBytes n, expiresAt⟩ now = true := by simp [← hexp]
      have hstart : startOf now (some ⟨intBytes n, expiresAt⟩) = n := by
        rw [startOf, if_neg hlive, Kv.counterOf_intBytes hn]
      have hkept : (Kv.Shelf.counted now delta ttl (some ⟨intBytes n, expiresAt⟩)).2 =
          expiresAt := by
        rw [Kv.Shelf.counted, if_neg hlive]
      have hrow : countRow env now delta ttl (some ⟨.integer n, d⟩) =
          ⟨.integer (n + delta), d⟩ := by
        simp only [countRow, hp, Bool.false_eq_true, if_false, Cell.castInteger]
        rw [addI64_of_mem (by rwa [hstart] at hsum)]
      rw [hcount, hstart, hkept, hrow]
      rw [hstart] at hsum
      refine ⟨.same hsum hd, iff_of_true rfl fun hpass => ?_⟩
      rw [Option.any_some, hp] at hpass
      cases hpass
  | @apart n m expiresAt t hn ht =>
    have hpass : Deadline.passed now (.due t) = true := decide_eq_true ht
    rw [countRow_of_passed ⟨.integer m, .due t⟩ hpass hdelta, hcount]
    refine ⟨.apart hsum ht, ?_⟩
    rw [Cell.castInteger]
    constructor
    · intro heq _
      omega
    · intro hzero
      rw [hzero hpass, Int.zero_add]

/-- What a run keeps. -/
structure Both.Inv (g : Kv.Config) (app : Option Ns.App) (name : Bytes) (s : Both env) : Prop where
  sound : Kv.SoundBoth g s.shm
  front : Kv.SoundBoth env.kv s.sql.mem
  clock : s.sql.mem.nowMs = s.shm.nowMs
  counters : Counters s.shm.nowSecs (s.shm.shelf g (Ns.key app name) .small)
    (s.sql.db (fromUtf8Lossy (l2Key env app name)))

theorem increment_run (env : Env) (delta : Int) (ttl : Nat) (s : Tiers env) :
    ∃ mem, (mem = s.mem ∨ mem = ((Kv.delete env.kv (Ns.key app name)).run s.mem).1) ∧
      (code env (countCall app name delta ttl)).run s =
        (⟨mem, (doIncrement env s.now (l2Key env app name) delta ttl s.db).1⟩,
          .count (unwrapOr (doIncrement env s.now (l2Key env app name) delta ttl s.db).2 0)) := by
  simp only [code, countCall, increment, Prog.run_map, Prog.run_bind, run_withConn, run_afterwards]
  split
  · exact ⟨_, .inr rfl, rfl⟩
  · exact ⟨_, .inl rfl, rfl⟩

theorem Counters.integer {now : Nat} {o : Option Kv.Held} {row : Row env.doubles}
    (h : Counters now o (some row)) : ∃ n, row.value = .integer n := by
  cases h with
  | same => exact ⟨_, rfl⟩
  | apart => exact ⟨_, rfl⟩

theorem doIncrement_eq {now : Nat} {key : Bytes} {delta : Int} {ttl : Nat} {t : Table env.doubles}
    (h : env.takes (fromUtf8Lossy key)
      (countRow env now delta ttl (t (fromUtf8Lossy key))).value = true) :
    doIncrement env now key delta ttl t = (Function.update t (fromUtf8Lossy key)
          (some (countRow env now delta ttl (t (fromUtf8Lossy key)))),
        .ok (countRow env now delta ttl (t (fromUtf8Lossy key))).value.castInteger) := by
  rw [doIncrement, upsert, if_pos h]
  rfl

variable (hlen : (Ns.key app name).length ≤ Kv.KEY_MAX) (hslots : g.slots .small ≠ 0)

variable (htakes : ∀ n, env.takes (fromUtf8Lossy (l2Key env app name)) (.integer n) = true)
include hlen hslots htakes

/-- **One step on both.** -/
theorem Both.Inv.increment {s : Both env} (h : s.Inv g app name) {delta : Int} {ttl : Nat}
    (hop : Ordinary g (Ns.key app name) s.shm delta ttl) :
    (s.step g env app name (.increment delta ttl)).Inv g app name ∧
      (s.Agrees g env app name (.increment delta ttl) ↔
        s.Restarts g env app name (.increment delta ttl)) := by
  have hnow : s.sql.now = s.shm.nowSecs := by
    rw [Tiers.now, Kv.Mem.nowSecs, h.clock, Kv.Mem.nowSecs]
  obtain ⟨hkeep, hiff⟩ := h.counters.increment hop.off hop.delta_ok hop.sum_ok hop.clock_ok
    hop.deadline_ok
  have hshm := Kv.code_increment_served h.sound hlen hslots (fun _ => hop.room) delta ttl
  rw [← countCall] at hshm
  obtain ⟨n, hn⟩ := hkeep.integer
  have htake : env.takes (fromUtf8Lossy (l2Key env app name)) (countRow env s.sql.now delta ttl
      (s.sql.db (fromUtf8Lossy (l2Key env app name)))).value = true := by
    rw [hnow, hn]
    exact htakes n
  obtain ⟨mem, hmem, hsql⟩ := increment_run env delta ttl s.sql
  rw [doIncrement_eq htake, hnow] at hsql
  have hfront : Kv.SoundBoth env.kv mem ∧ mem.nowMs = s.sql.mem.nowMs := by
    rcases hmem with rfl | rfl
    · exact ⟨h.front, rfl⟩
    · have hdel := Kv.delete_served h.front (Ns.key app name)
      exact ⟨hdel.sound, hdel.clock⟩
  refine ⟨?_, ?_⟩
  · rw [Both.step, hsql]
    refine ⟨hshm.sound, hfront.1, hfront.2.trans (h.clock.trans hshm.clock.symm), ?_⟩
    dsimp only
    rw [hshm.nowSecs, hshm.here, Function.update_self]
    simpa [Kv.Shelf.put] using hkeep
  · rw [Both.Agrees, hshm.res, hsql, Both.Restarts, hnow]
    simp only [Kv.Res.count.injEq, unwrapOr]
    exact hiff

end

/-- **Counters on both backends.** Increments of one key in any order, with any clock, return the
same on both exactly when each that finds its row expired starts from `0` in shared memory too. -/
theorem counters_agree_iff (hasher : Hasher) (slots largeSlots : Nat) (env : Env)
    (app : Option Ns.App) (name : Bytes) (now : Nat) (db : Table env.doubles) (ops : List CountOp)
    (hlen : (Ns.key app name).length ≤ Kv.KEY_MAX)
    (htakes : ∀ n, env.takes (fromUtf8Lossy (l2Key env app name)) (.integer n) = true)
    (habsent : db (fromUtf8Lossy (l2Key env app name)) = none)
    (hops : Run.Along (Both.step (.init hasher slots largeSlots) env app name)
      (Both.Meets (.init hasher slots largeSlots) env app name) (.start env now db) ops) :
    Run.Along (Both.step (.init hasher slots largeSlots) env app name)
        (Both.Agrees (.init hasher slots largeSlots) env app name) (.start env now db) ops ↔
      Run.Along (Both.step (.init hasher slots largeSlots) env app name)
        (Both.Restarts (.init hasher slots largeSlots) env app name) (.start env now db) ops := by
  have hslots : (Kv.Config.init hasher slots largeSlots).slots .small ≠ 0 := by
    simp only [Kv.Config.init]
    omega
  refine hops.iff (I := Both.Inv (.init hasher slots largeSlots) app name) ?_ ?_ ?_
  · rintro s (⟨delta, ttl⟩ | d) hop h -
    · exact (h.increment hlen hslots htakes hop).1
    · refine ⟨fun r => (h.sound r).congr rfl, fun r => (h.front r).congr rfl, ?_, ?_⟩
      · simp only [Both.step, tick, Kv.tick, h.clock]
      · refine Counters.mono h.counters ?_
        exact Nat.div_le_div_right (Nat.le_add_right ..)
  · rintro s (⟨delta, ttl⟩ | d) hop h
    · exact (h.increment hlen hslots htakes hop).2
    · exact Iff.rfl
  · refine ⟨fun r => Kv.sound_init _ r _, fun r => Kv.sound_init _ r _, rfl, ?_⟩
    simp only [Both.start, habsent, Kv.shelf_init]
    exact .absent

/-- A counter that lives for ten seconds, incremented after twenty seconds and once more. -/
def lateIncrements : List CountOp :=
  [.increment 1 10, .tick 20000, .increment 1 10, .tick 1000, .increment 1 10]

/-- **A counter starts again and again.** The third increment returns 2 in shared memory and 1 from
the database, where the row is still expired. -/
theorem counters_differ : let g := Kv.Config.init (fun _ => 0) 16 0
    let step := Both.step g (plainEnv false) none (ofString "k")
    let start := Both.start (plainEnv false) 0 fun _ => none
    Run.Along step (Both.Meets g (plainEnv false) none (ofString "k")) start lateIncrements ∧
      ¬ Run.Along step (Both.Agrees g (plainEnv false) none (ofString "k")) start
        lateIncrements := by
  decide

/-- The first two of them agree. -/
theorem counters_agree_once :
    Run.Along (Both.step (.init (fun _ => 0) 16 0) (plainEnv false) none (ofString "k"))
      (Both.Agrees (.init (fun _ => 0) 16 0) (plainEnv false) none (ofString "k"))
      (.start (plainEnv false) 0 fun _ => none) (lateIncrements.take 3) :=
  (counters_agree_iff (fun _ => 0) 16 0 (plainEnv false) none (ofString "k") 0 (fun _ => none)
    (lateIncrements.take 3) (by decide) (fun _ => rfl) rfl (by decide)).2
    (by decide)

end Askr.Sql
