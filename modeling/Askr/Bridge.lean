import Askr.Rcache.Tags

/-!
# The two cache bridges

PHP reaches the caches through a set of callbacks: `cache.rs` registers one over shared memory, and
`cache_sql.rs` another over a cache database. `flush` and `forget_tag` of `cache.rs` act on the
response cache too; those of `cache_sql.rs` leave it alone. So the two agree on what the response
cache serves as long as each `flush` finds no response of its application, and each `forget_tag` no
response with its tag or with one whose slot it takes over (`bridges_agree`).

The kv cache is a parameter here, with the flush of one application; of the namespaces it is left
open which applications have a name of their own (`is_named`).
-/

namespace Askr.Bridge

open Askr.Ns Function Rcache Run Bytes

/-- One row of `askr_cache`. -/
structure Row where
  key : Bytes
  value : Bytes
  expiresAt : Option Nat

/-- The cache database: the rows, and which key has which tag. -/
structure Db where
  rows : List Row
  tags : List (Bytes × Bytes)

/-- `do_flush_prefix`. -/
def Db.flushPrefix (db : Db) (pre : Bytes) : Db :=
  { rows := db.rows.filter fun r => !pre.isPrefixOf r.key
    tags := db.tags.filter fun t => !pre.isPrefixOf t.2 }

/-- `do_flush`. -/
def Db.flush (_ : Db) : Db := { rows := [], tags := [] }

/-- `do_forget_tag`. -/
def Db.forgetTag (db : Db) (tag : Bytes) : Db :=
  { rows := db.rows.filter fun r => !db.tags.any fun t => t.1 == tag && t.2 == r.key
    tags := db.tags.filter fun t => t.1 ≠ tag }

/-- What is left open: the hash, the kv cache in shared memory and its `flush_app`, whether it is
enabled, and `is_named`. -/
structure Env where
  hasher : Hasher
  Kv : Type
  flushKv : Kv → App → Kv
  l1 : Bool
  isNamed : App → Bool

/-- Everything a callback may act on. -/
structure World (env : Env) where
  kv : env.Kv
  db : Db
  rcache : Cache

/-- Which set of callbacks is registered. -/
inductive Registered where
  | shm
  | sql

/-- What happens: the server stores a response, or PHP calls, under an application. -/
inductive Call where
  | store (key : Bytes) (page : Page) (now : Nat)
  | forgetTag (current : Option App) (tag : Bytes)
  | flush (current : Option App)

section
variable {env : Env}

def flushL1 (w : World env) (current : Option App) : World env :=
  match env.l1, current with
  | true, some app => { w with kv := env.flushKv w.kv app }
  | _, _ => w

/-- `c_flush`, of either set. -/
def cFlush (b : Registered) (w : World env) (current : Option App) : World env :=
  match b with
  | .shm =>
    match current with
    | some app =>
      { w with kv := env.flushKv w.kv app, rcache := Rcache.flushApp w.rcache app }
    | none => w
  | .sql =>
    let w := match current.filter env.isNamed with
      | some app => { w with db := w.db.flushPrefix app.prefixBytes }
      | none => { w with db := w.db.flush }
    flushL1 w current

/-- `c_forget_tag`, of either set. -/
def cForgetTag (b : Registered) (w : World env) (current : Option App) (tag : Bytes) : World env :=
  match b with
  | .shm => { w with rcache := Rcache.forgetTag env.hasher w.rcache (Ns.key current tag) }
  | .sql => flushL1 { w with db := w.db.forgetTag tag } current

def run (b : Registered) (w : World env) : Call → World env
  | .store key page now => { w with rcache := (Rcache.store env.hasher w.rcache key page now).1 }
  | .forgetTag current tag => cForgetTag b w current tag
  | .flush current => cFlush b w current

variable (w : World env) (current : Option App)

@[simp] theorem flushL1_rcache : (flushL1 w current).rcache = w.rcache := by
  unfold flushL1
  split <;> rfl

@[simp] theorem cFlush_sql_rcache : (cFlush .sql w current).rcache = w.rcache := by
  simp only [cFlush, flushL1_rcache]
  split <;> rfl

@[simp] theorem cForgetTag_sql_rcache (tag : Bytes) :
    (cForgetTag .sql w current tag).rcache = w.rcache := by
  simp [cForgetTag]

end

/-- **Invalidation does not depend on the bridge**: after any calls the response cache serves the
same under either set of callbacks. -/
def BridgesAgree (env : Env) : Prop :=
  ∀ (w : World env) (slots : Nat) (calls : List Call) (key : Bytes) (now : Nat),
    let w₀ := { w with rcache := .init slots }
    (peek env.hasher (runs (run .shm) w₀ calls).rcache key now).2 =
      (peek env.hasher (runs (run .sql) w₀ calls).rcache key now).2

/-! ## Tables that serve the same -/

/-- Two slots that differ in the recorded generations at most. -/
def SameBut (e e' : Entry) : Prop := e' = { e with tags := e'.tags }

/-- Two tables that serve the same: the slots differ in the recorded generations at most, and no
live slot of either is invalid. No slot is a tombstone, since no lookup has buried anything. In the
first, every tag is where a lookup finds it. -/
structure Serves (c c' : Cache) : Prop where
  slots : c'.slots = c.slots
  plain : ∀ i, (c.entry i).state ≠ .tombstone
  same : ∀ i, SameBut (c.entry i) (c'.entry i)
  valid : ∀ i, (c.entry i).state = .occupied → (c.entry i).tagInvalid c.tag = false
  valid' : ∀ i, (c'.entry i).state = .occupied → (c'.entry i).tagInvalid c'.tag = false
  packed : Packed c.tag
  hashed : ∀ i, (c.entry i).state = .occupied → ∀ p ∈ (c.entry i).tags, p.1 ≠ 0

namespace SameBut

variable {e e' : Entry} (h : SameBut e e')
include h

theorem state : e'.state = e.state := by rw [h]
theorem keyHash : e'.keyHash = e.keyHash := by rw [h]
theorem expired (now : Nat) : e'.expired now = e.expired now := by rw [h]; rfl
theorem cached (now : Nat) : e'.cached now = e.cached now := by rw [h]; rfl

end SameBut

namespace Serves

variable {hasher : Hasher} {c c' : Cache}

theorem find?_ends (h : Serves c c') (k : Nat) :
    (c'.probe k).find? (ends c' k) = (c.probe k).find? (ends c k) := by
  have hprobe : c'.probe k = c.probe k := by rw [Cache.probe, h.slots, Cache.probe]
  have hends : ends c' k = ends c k := by
    funext i
    rw [ends, ends, (h.same i).state, (h.same i).keyHash]
  rw [hprobe, hends]

theorem peek_eq (h : Serves c c') (key : Bytes) (now : Nat) :
    (Rcache.peek hasher c key now).2 = (Rcache.peek hasher c' key now).2 := by
  have hhit : ∀ i, (peekSlot hasher c key now).2 = some i ↔
      (peekSlot hasher c' key now).2 = some i := by
    intro i
    rw [peekSlot, peekSlot, peekIn_hit_iff, peekIn_hit_iff, h.find?_ends, (h.same i).state,
      (h.same i).expired]
    constructor
    · rintro ⟨hf, hocc, hexp, -⟩
      exact ⟨hf, hocc, hexp, h.valid' i ((h.same i).state.trans hocc)⟩
    · rintro ⟨hf, hocc, hexp, -⟩
      exact ⟨hf, hocc, hexp, h.valid i hocc⟩
  have hslot : (peekSlot hasher c key now).2 = (peekSlot hasher c' key now).2 :=
    Option.ext hhit
  change (peekSlot hasher c key now).2.map _ = (peekSlot hasher c' key now).2.map _
  rw [hslot]
  cases (peekSlot hasher c' key now).2 with
  | none => rfl
  | some i => exact congrArg some ((h.same i).cached now).symm

theorem storeSlot_eq (h : Serves c c') (key : Bytes) :
    storeSlot hasher c' key = storeSlot hasher c key := by
  have hin : ∀ k w reuse target, storeIn c' k w reuse target = storeIn c k w reuse target := by
    intro k w
    induction w with
    | nil => intro reuse target; rw [storeIn, storeIn, h.slots]
    | cons i w ih =>
      intro reuse target
      rw [storeIn, storeIn, (h.same i).state, (h.same i).keyHash, ih, ih]
  rw [storeSlot, storeSlot, Cache.probe, h.slots, hin]
  rfl

theorem tagInvalid_writeEntry (tag : Nat → TagGen) (key : Bytes) (page : Page) (now : Nat) :
    (writeEntry hasher tag key page now).tagInvalid tag = false := by
  simp [Entry.tagInvalid, writeEntry]

theorem store (h : Serves c c') (key : Bytes) (page : Page) (now : Nat) :
    Serves (Rcache.store hasher c key page now).1 (Rcache.store hasher c' key page now).1 := by
  rw [Rcache.store, Rcache.store]
  split
  · simp only [h.storeSlot_eq]
    refine ⟨h.slots, fun i => ?_, fun i => ?_, fun i => ?_, fun i => ?_, h.packed, fun i => ?_⟩
    all_goals
      simp only [Cache.set_entry, Cache.set_tag]
      by_cases hi : i = storeSlot hasher c key
    · simp [hi, writeEntry]
    · simpa only [update_of_ne hi] using h.plain i
    · simp only [hi, update_self]
      rfl
    · simpa only [update_of_ne hi] using h.same i
    · simp only [hi, update_self]
      exact fun _ => tagInvalid_writeEntry _ _ _ _
    · simpa only [update_of_ne hi] using h.valid i
    · simp only [hi, update_self]
      exact fun _ => tagInvalid_writeEntry _ _ _ _
    · simpa only [update_of_ne hi] using h.valid' i
    · simp only [hi, update_self]
      intro _ p hp
      obtain ⟨t, -, rfl⟩ := List.mem_map.1 hp
      exact hashBytes_ne_zero _ _
    · simpa only [update_of_ne hi] using h.hashed i
  · exact h

theorem flushApp (h : Serves c c') {app : App}
    (happ : ∀ i, (c.entry i).state = .occupied → (c.entry i).app ≠ some app) :
    Serves (Rcache.flushApp c app) c' := by
  have hentry : ∀ i, (Rcache.flushApp c app).entry i = c.entry i := by
    intro i
    rcases Nat.lt_or_ge i c.slots with hi | hi
    · rw [Rcache.flushApp, c.sweep_entry _ hi, dropApp]
      split
      · rename_i hown
        have hempty : (c.entry i).state = .empty := by
          cases hst : (c.entry i).state with
          | empty => rfl
          | occupied => exact absurd hown (happ i hst)
          | tombstone => exact absurd hst (h.plain i)
        simp [← hempty]
      · rfl
    · exact c.sweep_entry_ge _ hi
  have htag : (Rcache.flushApp c app).tag = c.tag := c.sweep_tag _
  refine ⟨h.slots.trans (c.sweep_slots _).symm, fun i => ?_, fun i => ?_, fun i => ?_, h.valid',
    htag ▸ h.packed, fun i => ?_⟩
  · rw [hentry]
    exact h.plain i
  · rw [hentry]
    exact h.same i
  · rw [hentry, htag]
    exact h.valid i
  · rw [hentry]
    exact h.hashed i

theorem forgetTag (h : Serves c c') {t : Bytes}
    (htag : ∀ i, (c.entry i).state = .occupied → ∀ p ∈ (c.entry i).tags,
      p.1 ≠ hashBytes hasher t ∧ ¬ Displaces c.tag p.1 (hashBytes hasher t)) :
    Serves (Rcache.forgetTag hasher c t) c' := by
  refine ⟨h.slots, h.plain, h.same, fun i hocc => ?_, h.valid',
    packed_forgetTagIn h.packed (hashBytes_ne_zero _ _), h.hashed⟩
  have hvalid := h.valid i hocc
  rw [Entry.tagInvalid, List.any_eq_false] at hvalid ⊢
  rintro ⟨th, tg⟩ hp
  obtain ⟨hne, hd⟩ := htag i hocc (th, tg) hp
  have hgen : tagGen (Rcache.forgetTag hasher c t).tag th = tagGen c.tag th :=
    tagGen_forgetTagIn_of_ne h.packed (h.hashed i hocc _ hp) (hashBytes_ne_zero _ _) hne.symm hd
  simpa only [hgen] using hvalid (th, tg) hp

end Serves

/-! ## Where the bridges agree -/

section
variable {env : Env}

/-- The call finds nothing in the response cache that it would invalidate: a `flush` no response of
its application, a `forget_tag` no response with its tag, or with a tag whose slot it takes over. -/
def FindsNothing (w : World env) : Call → Prop
  | .store .. => True
  | .forgetTag current tag => ∀ i, (w.rcache.entry i).state = .occupied →
      ∀ p ∈ (w.rcache.entry i).tags, p.1 ≠ hashBytes env.hasher (Ns.key current tag) ∧
        ¬ Displaces w.rcache.tag p.1 (hashBytes env.hasher (Ns.key current tag))
  | .flush current => ∀ app ∈ current, ∀ i, (w.rcache.entry i).state = .occupied →
      (w.rcache.entry i).app ≠ some app

/-- **One call** keeps the two response caches alike, if it finds nothing. -/
theorem Serves.run {w w' : World env} (h : Serves w.rcache w'.rcache) {call : Call}
    (hcall : FindsNothing w call) :
    Serves (Bridge.run .shm w call).rcache (Bridge.run .sql w' call).rcache := by
  cases call with
  | store key page now => exact h.store key page now
  | forgetTag current tag =>
    rw [Bridge.run, Bridge.run, cForgetTag_sql_rcache]
    exact h.forgetTag hcall
  | flush current =>
    rw [Bridge.run, Bridge.run, cFlush_sql_rcache]
    cases current with
    | none => exact h
    | some app => exact h.flushApp (hcall app rfl)

/-- So does a run of such calls. -/
theorem Serves.runs {w w' : World env} (h : Serves w.rcache w'.rcache) {calls : List Call}
    (hcalls : Run.Along (Bridge.run .shm) FindsNothing w calls) :
    Serves (runs (Bridge.run .shm) w calls).rcache
      (runs (Bridge.run .sql) w' calls).rcache := by
  induction calls generalizing w w' with
  | nil => exact h
  | cons call calls ih => exact ih (h.run hcalls.1) hcalls.2

/-- **The bridges agree where there is nothing to invalidate.** In every run in which each call
finds nothing in the response cache, the response cache serves the same under either set of
callbacks. -/
theorem bridges_agree (w : World env) (slots : Nat) (calls : List Call)
    (hcalls : Run.Along (run .shm) FindsNothing { w with rcache := .init slots } calls)
    (key : Bytes) (now : Nat) :
    (peek env.hasher
        (runs (run .shm) { w with rcache := .init slots } calls).rcache key now).2 =
      (peek env.hasher
        (runs (run .sql) { w with rcache := .init slots } calls).rcache key now).2 := by
  have hinit : Serves (Cache.init slots) (Cache.init slots) :=
    ⟨rfl, fun i => by simp [Cache.init, Entry.zeroed], fun i => rfl,
      fun i hocc => (by simp [Cache.init, Entry.zeroed] at hocc),
      fun i hocc => (by simp [Cache.init, Entry.zeroed] at hocc),
      fun h h0 i _ hi => absurd hi.symm h0,
      fun i hocc => by simp [Cache.init, Entry.zeroed] at hocc⟩
  exact (Serves.runs hinit hcalls).peek_eq key now

end

/-- A cache database beside a kv cache that holds nothing. -/
def plainEnv : Env :=
  { hasher := bytesHash, Kv := Unit, flushKv := fun _ _ => (), l1 := true
    isNamed := fun _ => false }

def plainWorld : World plainEnv :=
  { kv := (), db := { rows := [], tags := [] }, rcache := .init 16 }

/-- An application, and a page of it with the tag `posts`. -/
def shopApp : App := ⟨List.replicate 16 100, by decide, by decide⟩

def postsPage : Page :=
  { status := 200, headers := [], body := ofString "page", ttl := 60, swr := 0, sie := 0
    tags := [Ns.key (some shopApp) (ofString "posts")], app := some shopApp }

/-- A `forget_tag` and a flush, and then the page. -/
def clearedFirst : List Call :=
  [.forgetTag (some shopApp) (ofString "posts"), .flush (some shopApp),
    .store (ofString "k") postsPage 100]

/-- There was nothing to invalidate yet. -/
theorem bridges_agree_cleared_first :
    (peek bytesHash (runs (run .shm) { plainWorld with rcache := .init 16 }
      clearedFirst).rcache (ofString "k") 101).2 =
    (peek bytesHash (runs (run .sql) { plainWorld with rcache := .init 16 }
      clearedFirst).rcache (ofString "k") 101).2 := by
  have hnothing : Run.Along (run .shm) FindsNothing { plainWorld with rcache := .init 16 }
      clearedFirst := by
    refine ⟨fun i hocc => ?_, fun app _ i hocc => ?_, trivial, trivial⟩
    · simp [Cache.init, Entry.zeroed] at hocc
    · simp [run, cForgetTag, Rcache.forgetTag, Cache.init, Entry.zeroed] at hocc
  exact bridges_agree plainWorld 16 clearedFirst hnothing _ _

/-- **A page outlives its invalidation.** The page of the tag `posts` is stored and the tag is
forgotten. With the callbacks of `cache.rs` the page is gone; with those of `cache_sql.rs` it is
still served. -/
theorem page_kept_by_sql : ¬ BridgesAgree plainEnv := by
  intro h
  have heq := congrArg Option.isSome (h plainWorld 16
    [.store (ofString "k") postsPage 100,
      .forgetTag (some shopApp) (ofString "posts")] (ofString "k") 101)
  revert heq
  decide +kernel

end Askr.Bridge
