import Askr.Conc.Prog
import Askr.Ns
import Askr.Shm

/-!
# The key-value cache

`cache.rs`: two tables in shared memory, one for small values and one for large ones, with a lock
per slot. Every operation walks the probe window of its key and holds one slot lock at a time, so it
is a program with one atomic action for each slot it locks. A lock-free read is one action too,
since a read that overlapped a writer is thrown away. The clock is part of the state and is read
where the source reads it.

`add` and `increment` have one shape: walk to the key or to the end of its chain (`claimScan`),
remember the first free slot on the way, and go back to that slot.
-/

namespace Askr.Kv

open Conc Bytes

def KEY_MAX : Nat := 250
def VAL_SMALL : Nat := 4096
def VAL_LARGE : Nat := 64 * 1024
/-- The linear-probe window. -/
def PROBE : Nat := 32

/-- The two size classes, `SMALL` and `LARGE`. -/
inductive Region where
  | small
  | large
deriving DecidableEq

/-- `V`, the bytes a slot of the region holds. -/
def Region.valMax : Region → Nat
  | .small => VAL_SMALL
  | .large => VAL_LARGE

structure Entry where
  state : SlotState
  hash : Nat
  /-- In seconds; `0` is never. -/
  expiresAt : Nat
  /-- In milliseconds. -/
  writtenAt : Nat
  key : Bytes
  val : Bytes

def Entry.zeroed : Entry :=
  { state := .empty, hash := 0, expiresAt := 0, writtenAt := 0, key := [], val := [] }

/-- What does not change once the regions are mapped. -/
structure Config where
  /-- The slots of a region; a region that is not mapped has none. -/
  slots : Region → Nat
  hasher : Hasher

/-- `init`: `map` gives a region at least sixteen slots, and no large slots are asked for with
`0`. -/
def Config.init (hasher : Hasher) (slots largeSlots : Nat) : Config :=
  { slots := fun
      | .small => max slots 16
      | .large => if largeSlots > 0 then max largeSlots 16 else 0
    hasher }

/-- The shared memory, and the clock. -/
structure Mem where
  entry : Region → Nat → Entry
  nowMs : Nat

def Mem.init (nowMs : Nat) : Mem := { entry := fun _ _ => .zeroed, nowMs }

def Mem.nowSecs (s : Mem) : Nat := s.nowMs / 1000

def Mem.put (s : Mem) (r : Region) (i : Nat) (e : Entry) : Mem :=
  { s with entry := Function.update s.entry r (Function.update (s.entry r) i e) }

/-- `write`, with the lock held. -/
def Mem.write (s : Mem) (r : Region) (i : Nat) (key val : Bytes) (h expires : Nat) : Mem :=
  s.put r i { state := .occupied, hash := h, expiresAt := expires, writtenAt := s.nowMs, key, val }

/-- `mark_state(e, 2)`. -/
def Mem.bury (s : Mem) (r : Region) (i : Nat) : Mem :=
  s.put r i { s.entry r i with state := .tombstone }

def Mem.markExpires (s : Mem) (r : Region) (i expires : Nat) : Mem :=
  s.put r i { s.entry r i with expiresAt := expires }

/-- `matches`: does the slot hold the key? -/
def Entry.matches (e : Entry) (key : Bytes) (h : Nat) : Bool :=
  e.state = .occupied && e.hash = h && e.key.length ≤ KEY_MAX && e.key = key

def Entry.expired (e : Entry) (now : Nat) : Bool := e.expiresAt ≠ 0 && e.expiresAt < now

/-- The deadline of an entry written now. -/
def deadline (now ttl : Nat) : Nat := if ttl > 0 then u64Add now ttl else 0

/-- `hash_key`. -/
def Config.hash (g : Config) (key : Bytes) : Nat := (g.hasher key).toNat

/-- The slots a key of hash `h` may be in. -/
def Config.window (g : Config) (r : Region) (h : Nat) : List Nat :=
  Askr.window PROBE (g.slots r) h

/-! ## `get` and `delete` -/

/-- The loop of `get`. An expired entry of the key is looked at again under its lock, and then made
a tombstone. -/
def getScan (r : Region) (key : Bytes) (h now : Nat) : List Nat → Prog Mem (Option Bytes)
  | [] => .ret none
  | i :: w => .read fun s =>
    if (s.entry r i).matches key h then
      if (s.entry r i).expired now then
        .atom fun s =>
          (if (s.entry r i).matches key h && (s.entry r i).expired now then s.bury r i else s,
            .ret none)
      else .ret (some (s.entry r i).val)
    else if (s.entry r i).state = .empty then .ret none
    else getScan r key h now w

def Region.get (g : Config) (r : Region) (key : Bytes) (h : Nat) : Prog Mem (Option Bytes) :=
  if g.slots r = 0 then .ret none
  else .read fun s => getScan r key h s.nowSecs (g.window r h)

/-- The loop of `delete`. -/
def deleteScan (r : Region) (key : Bytes) (h : Nat) : List Nat → Bool → Prog Mem Bool
  | [], found => .ret found
  | i :: w, found => .atom fun s =>
    if (s.entry r i).state = .empty then (s, .ret found)
    else if (s.entry r i).matches key h then (s.bury r i, deleteScan r key h w true)
    else (s, deleteScan r key h w found)

def Region.delete (g : Config) (r : Region) (key : Bytes) (h : Nat) : Prog Mem Bool :=
  if g.slots r = 0 then .ret false else deleteScan r key h (g.window r h) false

/-! ## `set` -/

/-- What the loop of `set` has found so far. -/
structure SetAcc where
  /-- The first free slot. -/
  reuse : Option Nat
  victim : Nat
  oldest : Nat
  expiredVictim : Option Nat

def SetAcc.start (h slots : Nat) : SetAcc :=
  { reuse := none, victim := h % slots, oldest := U64 - 1, expiredVictim := none }

/-- A slot that does not hold the key. -/
def SetAcc.see (a : SetAcc) (i : Nat) (e : Entry) (now : Nat) : SetAcc :=
  if e.state = .occupied then
    { reuse := a.reuse
      victim := if e.writtenAt < a.oldest then i else a.victim
      oldest := if e.writtenAt < a.oldest then e.writtenAt else a.oldest
      expiredVictim := if e.expired now then a.expiredVictim.or (some i) else a.expiredVictim }
  else { a with reuse := a.reuse.or (some i) }

/-- A free slot, else an expired entry, else the oldest entry. -/
def SetAcc.target (a : SetAcc) : Nat := (a.reuse.or a.expiredVictim).getD a.victim

/-- `tombstone_others`, and the return of `set`. -/
def tombstoneOthers (r : Region) (key : Bytes) (h keep : Nat) : List Nat → Prog Mem Bool
  | [] => .ret true
  | i :: w =>
    if i = keep then tombstoneOthers r key h keep w
    else .atom fun s =>
      if (s.entry r i).state = .empty then (s, .ret true)
      else if (s.entry r i).matches key h then (s.bury r i, tombstoneOthers r key h keep w)
      else (s, tombstoneOthers r key h keep w)

/-- The write of `set` into the slot it chose, whatever is there by now. -/
def setWrite (g : Config) (r : Region) (key val : Bytes) (h expires target : Nat) : Prog Mem Bool :=
  .atom fun s =>
    (s.write r target key val h expires, tombstoneOthers r key h target (g.window r h))

/-- The loop of `set`. -/
def setScan (g : Config) (r : Region) (key val : Bytes) (h expires now : Nat) :
    List Nat → SetAcc → Prog Mem Bool
  | [], a => setWrite g r key val h expires a.target
  | i :: w, a => .atom fun s =>
    if (s.entry r i).matches key h then (s.write r i key val h expires, .ret true)
    else
      let a := a.see i (s.entry r i) now
      (s, if (s.entry r i).state = .empty then setWrite g r key val h expires a.target
        else setScan g r key val h expires now w a)

def Region.set (g : Config) (r : Region) (key val : Bytes) (h ttl : Nat) : Prog Mem Bool :=
  if g.slots r = 0 then .ret false
  else if val.length > r.valMax then .ret false
  else .read fun s =>
    setScan g r key val h (deadline s.nowSecs ttl) s.nowSecs (g.window r h)
      (.start h (g.slots r))

/-! ## `add` and `increment` -/

/-- The walk that `add` and `increment` share: `hit` is what is done at the slot that holds the key,
with its lock held, and `commit` what is done with the first free slot once the key was not found.
-/
def claimScan {α : Type} (r : Region) (key : Bytes) (h : Nat) (hit : Mem → Nat → Mem × α)
    (commit : Option Nat → Prog Mem α) : List Nat → Option Nat → Prog Mem α
  | [], reuse => commit reuse
  | i :: w, reuse => .atom fun s =>
    if (s.entry r i).matches key h then ((hit s i).1, .ret (hit s i).2)
    else
      let reuse := if (s.entry r i).state = .occupied then reuse else reuse.or (some i)
      (s, if (s.entry r i).state = .empty then commit reuse
        else claimScan r key h hit commit w reuse)

/-- `add` at the slot that holds the key: refused while that is live. -/
def addHit (r : Region) (key val : Bytes) (h expires now : Nat) (s : Mem) (i : Nat) : Mem × Bool :=
  if (s.entry r i).expired now then (s.write r i key val h expires, true) else (s, false)

/-- `add` at the free slot it remembered, looked at again. -/
def addCommit (r : Region) (key val : Bytes) (h expires now : Nat) : Option Nat → Prog Mem Bool
  | none => .ret false
  | some i => .atom fun s =>
    if (s.entry r i).matches key h && !(s.entry r i).expired now then (s, .ret false)
    else if (s.entry r i).state ≠ .occupied || (s.entry r i).matches key h ||
        (s.entry r i).expired now then (s.write r i key val h expires, .ret true)
    else (s, .ret false)

def Region.add (g : Config) (r : Region) (key val : Bytes) (h ttl : Nat) : Prog Mem Bool :=
  if g.slots r = 0 then .ret false
  else if val.length > r.valMax then .ret false
  else .read fun s =>
    claimScan r key h (addHit r key val h (deadline s.nowSecs ttl) s.nowSecs)
      (addCommit r key val h (deadline s.nowSecs ttl) s.nowSecs) (g.window r h) none

/-- The counter a value is read as: a decimal `i64` with white space around it, and `0` for any
other text. -/
def counterOf (val : Bytes) : Int :=
  if isUtf8 val then (parseI64 (trim val)).getD 0 else 0

/-- `i64::saturating_add`. -/
def satAddI64 (a b : Int) : Int := max (-9223372036854775808) (min (a + b) 9223372036854775807)

/-- A counter bumped in place. -/
def bump (r : Region) (key : Bytes) (h : Nat) (delta : Int) (s : Mem) (i : Nat) : Mem × Int :=
  let next := satAddI64 (counterOf (s.entry r i).val) delta
  (s.write r i key (intBytes next) h (s.entry r i).expiresAt, next)

/-- `increment` at the slot that holds the key: an expired counter starts again. -/
def incrementHit (r : Region) (key : Bytes) (h : Nat) (delta : Int) (expires now : Nat) (s : Mem)
    (i : Nat) : Mem × Int :=
  if (s.entry r i).expired now then
    let next := satAddI64 0 delta
    (s.write r i key (intBytes next) h expires, next)
  else bump r key h delta s i

/-- `increment` at the free slot it remembered: a counter that is there by now is bumped, and
anything else is written over. -/
def incrementCommit (r : Region) (key : Bytes) (h : Nat) (delta : Int) (expires now : Nat) :
    Option Nat → Prog Mem Int
  | none => .ret delta
  | some i => .atom fun s =>
    if (s.entry r i).matches key h && !(s.entry r i).expired now then
      ((bump r key h delta s i).1, .ret (bump r key h delta s i).2)
    else (s.write r i key (intBytes delta) h expires, .ret delta)

def Region.increment (g : Config) (r : Region) (key : Bytes) (h : Nat) (delta : Int) (ttl : Nat) :
    Prog Mem Int :=
  if g.slots r = 0 then .ret 0
  else .read fun s =>
    claimScan r key h (incrementHit r key h delta (deadline s.nowSecs ttl) s.nowSecs)
      (incrementCommit r key h delta (deadline s.nowSecs ttl) s.nowSecs) (g.window r h) none

/-! ## `touch` -/

/-- The loop of `touch`. -/
def touchScan (r : Region) (key : Bytes) (h expires now : Nat) : List Nat → Prog Mem Bool
  | [] => .ret false
  | i :: w => .atom fun s =>
    if (s.entry r i).state = .empty then (s, .ret false)
    else if (s.entry r i).matches key h then
      if (s.entry r i).expired now then (s.bury r i, .ret false)
      else (s.markExpires r i expires, .ret true)
    else (s, touchScan r key h expires now w)

def Region.touch (g : Config) (r : Region) (key : Bytes) (h ttl : Nat) : Prog Mem Bool :=
  if g.slots r = 0 then .ret false
  else .read fun s => touchScan r key h (deadline s.nowSecs ttl) s.nowSecs (g.window r h)

/-! ## The public functions

They apply the namespace of the application in force to the key, and route over the two regions. -/

/-- `get`: small, then large. -/
def get (g : Config) (key : Bytes) : Prog Mem (Option Bytes) :=
  if key.length > KEY_MAX then .ret none
  else (Region.small.get g key (g.hash key)).bind fun
    | some v => .ret (some v)
    | none => Region.large.get g key (g.hash key)

/-- `set`: the region by the size of the value, and no copy left in the other one. -/
def set (g : Config) (key val : Bytes) (ttl : Nat) : Prog Mem Bool :=
  if key.length > KEY_MAX then .ret false
  else if val.length ≤ VAL_SMALL then
    (Region.large.delete g key (g.hash key)).bind fun _ =>
      Region.small.set g key val (g.hash key) ttl
  else if val.length ≤ VAL_LARGE then
    (Region.small.delete g key (g.hash key)).bind fun _ =>
      Region.large.set g key val (g.hash key) ttl
  else .ret false

/-- `add`: a key live in the large region blocks it. -/
def add (g : Config) (key val : Bytes) (ttl : Nat) : Prog Mem Bool :=
  if key.length > KEY_MAX ∨ val.length > VAL_SMALL then .ret false
  else (Region.large.get g key (g.hash key)).bind fun v =>
    if v.isSome then .ret false else Region.small.add g key val (g.hash key) ttl

/-- `delete`, from both regions. -/
def delete (g : Config) (key : Bytes) : Prog Mem Bool :=
  (Region.small.delete g key (g.hash key)).bind fun s =>
    (Region.large.delete g key (g.hash key)).map (s || ·)

/-- `touch`: the first region that has the key. -/
def touch (g : Config) (key : Bytes) (ttl : Nat) : Prog Mem Bool :=
  if key.length > KEY_MAX then .ret false
  else (Region.small.touch g key (g.hash key) ttl).bind fun s =>
    if s then .ret true else Region.large.touch g key (g.hash key) ttl

/-- `increment`, in the small region. -/
def increment (g : Config) (key : Bytes) (delta : Int) (ttl : Nat) : Prog Mem Int :=
  if key.length > KEY_MAX then .ret 0
  else Region.small.increment g key (g.hash key) delta ttl

inductive Req where
  | get
  | set (val : Bytes) (ttl : Nat)
  | add (val : Bytes) (ttl : Nat)
  | delete
  | touch (ttl : Nat)
  | increment (delta : Int) (ttl : Nat)
deriving DecidableEq

/-- A call: the application in force, the key it names, and the request. -/
structure Call where
  app : Option Ns.App
  name : Bytes
  req : Req
deriving DecidableEq

/-- The key a call is about: `ns::key`. -/
def Call.key (c : Call) : Bytes := Ns.key c.app c.name

inductive Res where
  | value (v : Option Bytes)
  | flag (b : Bool)
  | count (n : Int)
deriving DecidableEq

def code (g : Config) (c : Call) : Prog Mem Res :=
  match c.req with
  | .get => (get g c.key).map .value
  | .set val ttl => (set g c.key val ttl).map .flag
  | .add val ttl => (add g c.key val ttl).map .flag
  | .delete => (delete g c.key).map .flag
  | .touch ttl => (touch g c.key ttl).map .flag
  | .increment delta ttl => (increment g c.key delta ttl).map .count

/-- The clock moves on by some milliseconds. -/
def tick (d : Nat) (s : Mem) : Mem := { s with nowMs := s.nowMs + d }

end Askr.Kv
