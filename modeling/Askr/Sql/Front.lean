import Askr.Kv.Evict
import Askr.Sql.Cache

/-!
# The shared cache in front of the database

Sequential runs of the calls of `cache_sql.rs`, with the cache in shared memory in front of the
table. What is on the shelf of a key has expired, or it is the value and the deadline of its row
(`Coherent`), and then a `get` returns what the row holds (`front_shows`), for calls that meet four
conditions (`Plain`):

* a value that is too large for the shared cache is stored only while that holds nothing of the key;
* no `get` is made at the very second at which its row expires, which only the table takes for over;
* deadlines are within the range of an integer, since `do_get_with_ttl` cannot read another one;
* the calls have the same row exactly when they have the same key in shared memory (`SameRows`).
-/

namespace Askr.Sql

open Conc Bytes Sqlite Function List Prog

/-! ## Runs -/

def seqStep (env : Env) (s : Tiers env) : Kv.Op → Tiers env
  | .call c => ((code env c).run s).1
  | .tick d => tick d s

/-- A `get` returns what its row holds. -/
def Shows (env : Env) (s : Tiers env) : Kv.Op → Prop
  | .call c => c.req = .get → ((code env c).run s).2 = .value (s.holds (rowKey env c))
  | .tick _ => True

/-- The shared cache holds nothing live under the key. -/
def Bare (env : Env) (s : Tiers env) (key : Bytes) : Prop :=
  ∀ r, ∀ e ∈ s.mem.shelf env.kv key r, e.expired s.now = true

/-- The deadline is within the range of an integer. -/
def InTime (now ttl : Nat) : Prop := now + ttl < 9223372036854775808

/-- The calls that the shared cache keeps up with. -/
def Plain (env : Env) (s : Tiers env) : Kv.Op → Prop
  | .tick _ => True
  | .call c =>
    match c.req with
    | .get => ∀ row ∈ s.db (rowKey env c), row.expiresAt ≠ .due s.now
    | .set val ttl => InTime s.now ttl ∧ (val.length ≤ Kv.VAL_LARGE ∨ Bare env s c.key)
    | .add val ttl => InTime s.now ttl ∧ (val.length ≤ Kv.VAL_LARGE ∨ Bare env s c.key)
    | .touch ttl => InTime s.now ttl
    | .increment _ ttl => InTime s.now ttl
    | .delete => True

instance (now ttl : Nat) : Decidable (InTime now ttl) := inferInstanceAs (Decidable (_ < _))

instance (env : Env) (s : Tiers env) (key : Bytes) : Decidable (Bare env s key) :=
  decidable_of_iff ((∀ e ∈ s.mem.shelf env.kv key .small, e.expired s.now = true) ∧
      ∀ e ∈ s.mem.shelf env.kv key .large, e.expired s.now = true)
    ⟨fun h r => match r with | .small => h.1 | .large => h.2, fun h => ⟨h .small, h .large⟩⟩

instance (env : Env) (s : Tiers env) : (op : Kv.Op) → Decidable (Plain env s op)
  | .tick _ => .isTrue trivial
  | .call ⟨_, _, .get⟩ => inferInstanceAs (Decidable (∀ row ∈ _, _))
  | .call ⟨_, _, .set ..⟩ => inferInstanceAs (Decidable (_ ∧ _))
  | .call ⟨_, _, .add ..⟩ => inferInstanceAs (Decidable (_ ∧ _))
  | .call ⟨_, _, .touch _⟩ => inferInstanceAs (Decidable (InTime ..))
  | .call ⟨_, _, .increment ..⟩ => inferInstanceAs (Decidable (InTime ..))
  | .call ⟨_, _, .delete⟩ => .isTrue trivial

/-- The calls have the same row exactly when they have the same key in shared memory. -/
def SameRows (env : Env) (D : Kv.Call → Prop) : Prop :=
  ∀ c c', D c → D c' → (rowKey env c = rowKey env c' ↔ c.key = c'.key)

/-! ## Coherence -/

/-- A deadline in the range of an integer. -/
def Whole : Deadline → Prop
  | .never => True
  | .due t => t < U64
  | .beyond => False

/-- What is on a shelf was copied from the row. -/
structure Fits {d : Doubles} (row : Row d) (e : Kv.Held) : Prop where
  value : valueToBytes row.value = e.val
  deadline : row.expiresAt = if e.expiresAt = 0 then .never else .due e.expiresAt

/-- What is on the shelves has expired, or is what the rows hold. -/
structure Coherent (env : Env) (D : Kv.Call → Prop) (s : Tiers env) : Prop where
  sound : Kv.SoundBoth env.kv s.mem
  whole : Deadlines Whole s.db
  fits : ∀ c, D c → ∀ r e, s.mem.shelf env.kv c.key r = some e →
    e.expired s.now = true ∨ ∃ row, s.db (rowKey env c) = some row ∧ Fits row e

variable {env : Env} {D : Kv.Call → Prop} {s : Tiers env} {c : Kv.Call}

theorem whole_deadline {now ttl : Nat} (h : InTime now ttl) : Whole (deadline now ttl) := by
  rw [InTime] at h
  rw [deadline]
  by_cases hpos : asI64 ttl > 0
  · rw [if_pos hpos, if_pos h]
    exact Nat.lt_trans h (by decide)
  · rw [if_neg hpos]
    trivial

theorem deadline_eq {now ttl : Nat} (h : InTime now ttl) : deadline now ttl =
      if Kv.deadline now ttl = 0 then .never else .due (Kv.deadline now ttl) := by
  rw [InTime] at h
  have hadd : u64Add now ttl = now + ttl := Nat.mod_eq_of_lt (Nat.lt_trans h (by decide))
  rw [deadline, Kv.deadline, asI64_of_lt (by omega), hadd]
  by_cases hpos : ttl > 0
  · rw [if_pos (by omega), if_pos h, if_pos hpos, if_neg (by omega)]
  · rw [if_neg (by omega), if_neg hpos, if_pos rfl]

/-! ## What a call does to both -/

theorem Coherent.deleted (hD : SameRows env D) (h : Coherent env D s) (hc : D c)
    {db : Table env.doubles} (hother : ∀ k, k ≠ rowKey env c → db k = s.db k)
    (hwhole : Deadlines Whole db) :
    Coherent env D ⟨((Kv.delete env.kv c.key).run s.mem).1, db⟩ := by
  have hdel := Kv.delete_served h.sound c.key
  refine ⟨hdel.sound, hwhole, fun c' hc' r e he => ?_⟩
  by_cases hk : c'.key = c.key
  · rw [hk, Kv.delete_left h.sound] at he
    cases he
  · have hrow : rowKey env c' ≠ rowKey env c := fun heq => hk ((hD c' c hc' hc).1 heq)
    dsimp only at he ⊢
    rw [hdel.others _ hk] at he
    rw [Tiers.now, hdel.nowSecs, hother _ hrow]
    exact h.fits c' hc' r e he

theorem Coherent.filled (hD : SameRows env D) (h : Coherent env D s) (hc : D c)
    {db : Table env.doubles} {row : Row env.doubles} {val : Bytes} {ttl : Nat}
    (hhere : db (rowKey env c) = some row) (hfits : Fits row ⟨val, Kv.deadline s.now ttl⟩)
    (hother : ∀ k, k ≠ rowKey env c → db k = s.db k) (hwhole : Deadlines Whole db)
    (hsize : val.length ≤ Kv.VAL_LARGE ∨ Bare env s c.key) :
    Coherent env D ⟨((Kv.set env.kv c.key val ttl).run s.mem).1, db⟩ := by
  have hset := Kv.set_left h.sound c.key val ttl
  have hnow : ((Kv.set env.kv c.key val ttl).run s.mem).1.nowSecs = s.now := by
    rw [Kv.Mem.nowSecs, hset.clock, Tiers.now, Kv.Mem.nowSecs]
  refine ⟨hset.sound, hwhole, fun c' hc' r e he => ?_⟩
  dsimp only at he ⊢
  rw [Tiers.now, hnow]
  by_cases hk : c'.key = c.key
  · rw [hk] at he
    rw [(hD c' c hc' hc).2 hk]
    rcases hset.here r e he with rfl | ⟨hlarge, hold⟩
    · exact .inr ⟨row, hhere, hfits⟩
    · exact .inl (hsize.resolve_left (Nat.not_le.2 hlarge) r e hold)
  · have hrow : rowKey env c' ≠ rowKey env c := fun heq => hk ((hD c' c hc' hc).1 heq)
    rw [hother _ hrow]
    exact h.fits c' hc' r e (hset.others _ hk r e he)

theorem Coherent.fewer (h : Coherent env D s) {mem : Kv.Mem} (hsound : Kv.SoundBoth env.kv mem)
    (hclock : mem.nowMs = s.mem.nowMs)
    (hsub : ∀ k r e, mem.shelf env.kv k r = some e → s.mem.shelf env.kv k r = some e) :
    Coherent env D ⟨mem, s.db⟩ := by
  refine ⟨hsound, h.whole, fun c hc r e he => ?_⟩
  have hnow : Tiers.now (⟨mem, s.db⟩ : Tiers env) = s.now := by
    rw [Tiers.now, Kv.Mem.nowSecs, hclock, Tiers.now, Kv.Mem.nowSecs]
  rw [hnow]
  exact h.fits c hc r e (hsub _ r e he)

/-- A live value of a shelf is what the row holds, unless this is the second at which it expires. -/
theorem Coherent.holds (h : Coherent env D s) (hc : D c)
    (hoff : ∀ row ∈ s.db (rowKey env c), row.expiresAt ≠ .due s.now) {r : Kv.Region} {e : Kv.Held}
    (he : s.mem.shelf env.kv c.key r = some e) (hlive : e.expired s.now = false) :
    s.holds (rowKey env c) = some e.val := by
  rcases h.fits c hc r e he with hexp | ⟨row, hrow, hfits⟩
  · rw [hlive] at hexp
    cases hexp
  · have hpassed : row.expiresAt.passed s.now = false := by
      have hne := hoff row hrow
      rw [hfits.deadline] at hne ⊢
      split at hne
      · rename_i hzero
        rw [if_pos hzero]
        rfl
      · rename_i hzero
        rw [if_neg hzero]
        have hne' : e.expiresAt ≠ s.now := fun heq => hne (heq ▸ rfl)
        simp only [Kv.Held.expired, Bool.and_eq_false_iff, decide_eq_false_iff_not] at hlive
        exact decide_eq_false (by omega)
    rw [Tiers.holds, Table.live, hrow, Option.filter_some, hpassed]
    exact congrArg some hfits.value

theorem restOf_fits {row : Row env.doubles} (hwhole : Whole row.expiresAt) {now : Nat}
    (hlive : row.expiresAt.passed now = false) : ∃ ttl, restOf now row.expiresAt = .ok ttl ∧
      Fits row ⟨valueToBytes row.value, Kv.deadline now ttl⟩ := by
  obtain ⟨value, d⟩ := row
  cases d with
  | never => exact ⟨0, rfl, rfl, rfl⟩
  | due t =>
    have ht : now < t := Nat.lt_of_not_le (of_decide_eq_false hlive)
    have hrest : max (t - now) 1 = t - now := by omega
    have hsum : Kv.deadline now (t - now) = t := by
      rw [Kv.deadline, if_pos (by omega), u64Add, Nat.add_sub_of_le (Nat.le_of_lt ht),
        Nat.mod_eq_of_lt hwhole]
    refine ⟨t - now, by rw [restOf, hrest], rfl, ?_⟩
    have hne : t ≠ 0 := by omega
    rw [hsum, if_neg hne]
  | beyond => exact hwhole.elim

theorem Coherent.get (hl1 : env.l1 = true) (hD : SameRows env D) (h : Coherent env D s) (hc : D c)
    (hoff : ∀ row ∈ s.db (rowKey env c), row.expiresAt ≠ .due s.now) :
    Coherent env D ((Sql.get env c.app c.name).run s).1 ∧
      ((Sql.get env c.app c.name).run s).2 = s.holds (rowKey env c) := by
  obtain ⟨hsound, hclock, hsub, hres⟩ := Kv.get_left h.sound c.key
  generalize hrun : (Kv.get env.kv c.key).run s.mem = out at hsound hclock hsub hres
  obtain ⟨mem, v⟩ := out
  dsimp only at hsound hclock hsub hres
  have hfewer := h.fewer hsound hclock hsub
  have hnow : mem.nowSecs = s.now := by rw [Kv.Mem.nowSecs, hclock, Tiers.now, Kv.Mem.nowSecs]
  rcases hres with ⟨r, e, he, hlive, rfl⟩ | ⟨rfl, hempty⟩
  · rw [get_hit hl1 hrun]
    exact ⟨hfewer, (h.holds hc hoff he hlive).symm⟩
  · rw [get_miss hl1 hrun, hnow, doGetWithTtl, Tiers.holds]
    cases hrow : s.db.live s.now (rowKey env c) with
    | none =>
      rw [rowKey] at hrow
      rw [hrow]
      exact ⟨hfewer, rfl⟩
    | some row =>
      obtain ⟨hdb, hlive⟩ := Option.filter_eq_some_iff.1 hrow
      obtain ⟨ttl, hrest, hfits⟩ := restOf_fits (h.whole _ _ hdb) (by simpa using hlive)
      rw [rowKey] at hrow
      simp only [hrow, hrest, Except.map, unwrapOr, Option.map_some, and_true]
      refine hfewer.filled hD hc hdb ?_ (fun _ _ => rfl) h.whole (.inr fun r e he => ?_)
      · rwa [Tiers.now, hnow]
      · dsimp only at he
        rw [hempty r] at he
        cases he

theorem fits_written {now ttl : Nat} (val : Bytes) (h : InTime now ttl) :
    Fits (⟨.blob val, deadline now ttl⟩ : Row env.doubles) ⟨val, Kv.deadline now ttl⟩ :=
  ⟨rfl, deadline_eq h⟩

theorem Coherent.set (hl1 : env.l1 = true) (hD : SameRows env D) (h : Coherent env D s) (hc : D c)
    {val : Bytes} {ttl : Nat} (htime : InTime s.now ttl)
    (hsize : val.length ≤ Kv.VAL_LARGE ∨ Bare env s c.key) :
    Coherent env D ((Sql.set env c.app c.name val ttl).run s).1 := by
  simp only [Sql.set, run_bind, run_withConn]
  by_cases htakes : env.takes (rowKey env c) (.blob val) = true
  · have hdo : doSet env s.now (l2Key env c.app c.name) val ttl s.db =
        (update s.db (rowKey env c) (some ⟨.blob val, deadline s.now ttl⟩), .ok ()) :=
      if_pos htakes
    rw [hdo]
    simp only [run_afterwards, hl1, if_true]
    refine h.filled hD hc (update_self ..) (fits_written val htime)
      (fun k hk => update_of_ne hk _ _) (h.whole.update (whole_deadline htime)) hsize
  · have hdo : doSet env s.now (l2Key env c.app c.name) val ttl s.db = (s.db, .error .tooBig) :=
      if_neg htakes
    rw [hdo]
    exact h

theorem Coherent.add (hl1 : env.l1 = true) (hD : SameRows env D) (h : Coherent env D s) (hc : D c)
    {val : Bytes} {ttl : Nat} (htime : InTime s.now ttl)
    (hsize : val.length ≤ Kv.VAL_LARGE ∨ Bare env s c.key) :
    Coherent env D ((Sql.add env c.app c.name val ttl).run s).1 := by
  rw [Sql.add, run_bind, run_withConn]
  have hother : ∀ k, k ≠ rowKey env c →
      (doAdd env s.now (l2Key env c.app c.name) val ttl s.db).1 k = s.db k :=
    fun k hk => doAdd_other hk
  have hwhole : Deadlines Whole (doAdd env s.now (l2Key env c.app c.name) val ttl s.db).1 :=
    h.whole.doAdd (whole_deadline htime)
  by_cases hadded : unwrapOr (doAdd env s.now (l2Key env c.app c.name) val ttl s.db).2 false = true
  · rw [if_pos hadded, run_afterwards, if_pos hl1]
    exact h.filled hD hc (doAdd_row hadded) (fits_written val htime) hother hwhole hsize
  · rw [if_neg hadded, run_afterwards, if_pos hl1]
    exact h.deleted hD hc hother hwhole

/-- **Every call keeps the two coherent.** -/
theorem Coherent.step (hl1 : env.l1 = true) (hD : SameRows env D) (h : Coherent env D s)
    {op : Kv.Op} (hop : ∀ c, op = .call c → D c) (hplain : Plain env s op) :
    Coherent env D (seqStep env s op) ∧ Shows env s op := by
  cases op with
  | tick d =>
    refine ⟨⟨fun r => (h.sound r).congr rfl, h.whole, fun c hc r e he => ?_⟩, trivial⟩
    rcases h.fits c hc r e he with hexp | hfits
    · exact .inl (Kv.Held.expired_mono hexp (Nat.div_le_div_right (Nat.le_add_right ..)))
    · exact .inr hfits
  | call c =>
    have hc := hop c rfl
    rw [seqStep, Shows, code]
    rw [Plain] at hplain
    cases hreq : c.req with
    | get =>
      simp only [hreq] at hplain ⊢
      obtain ⟨hcoh, hres⟩ := h.get hl1 hD hc hplain
      exact ⟨by rwa [run_map], fun _ => by rw [run_map, hres]⟩
    | set val ttl =>
      simp only [hreq] at hplain ⊢
      rw [run_map]
      exact ⟨h.set hl1 hD hc hplain.1 hplain.2, fun hno => by cases hno⟩
    | add val ttl =>
      simp only [hreq] at hplain ⊢
      rw [run_map]
      exact ⟨h.add hl1 hD hc hplain.1 hplain.2, fun hno => by cases hno⟩
    | delete =>
      refine ⟨?_, fun hno => by cases hno⟩
      simp only [run_map, Sql.delete, run_bind, run_withConn, run_afterwards, hl1,
        if_true]
      exact h.deleted hD hc (fun k hk => doDelete_other hk) h.whole.doDelete
    | touch ttl =>
      simp only [hreq] at hplain
      refine ⟨?_, fun hno => by cases hno⟩
      simp only [run_map, Sql.touch, run_bind, run_withConn, run_afterwards, hl1, if_true]
      exact h.deleted hD hc (fun k hk => doTouch_other hk) (h.whole.doTouch (whole_deadline hplain))
    | increment delta ttl =>
      simp only [hreq] at hplain
      refine ⟨?_, fun hno => by cases hno⟩
      simp only [run_map, Sql.increment, run_bind, run_withConn, run_afterwards, hl1,
        if_true]
      exact h.deleted hD hc (fun k hk => doIncrement_other hk)
        (h.whole.doIncrement (whole_deadline hplain))

/-- **The shared cache never hides the database.** From an empty shared cache in front of any
database with deadlines in range, in every run of calls that are plain. -/
theorem front_shows (env : Env) (hl1 : env.l1 = true) (now : Nat) (db : Table env.doubles)
    (hdb : Deadlines Whole db) (ops : List Kv.Op) (hrows : SameRows env fun c => .call c ∈ ops)
    (hplain : Run.Along (seqStep env) (Plain env) ⟨.init now, db⟩ ops) :
    Run.Along (seqStep env) (Shows env) ⟨.init now, db⟩ ops := by
  have hstart : Coherent env (fun c => .call c ∈ ops) ⟨.init now, db⟩ := by
    refine ⟨fun r => Kv.sound_init _ r now, hdb, fun c _ r e he => ?_⟩
    rw [Kv.shelf_init] at he
    cases he
  refine (hplain.and_mem (D := fun op => op ∈ ops) fun op => id).shows
    (I := Coherent env fun c => .call c ∈ ops) ?_ ?_ hstart
  · exact fun s op hop h => (h.step hl1 hrows (fun c hc => hc ▸ hop.2) hop.1).1
  · exact fun s op hop h => (h.step hl1 hrows (fun c hc => hc ▸ hop.2) hop.1).2

/-- A call on the key `k`, without an application. -/
def onK (req : Kv.Req) : Kv.Call := ⟨none, ofString "k", req⟩

/-- A value with one byte more than the shared cache takes. -/
def oversize : Bytes := replicate (Kv.VAL_LARGE + 1) 0

/-- A small value is stored, and then one that is too large for the shared cache. -/
def replaced : List Kv.Op :=
  [.call (onK (.set [1] 0)), .call (onK (.set oversize 0)), .call (onK .get)]

theorem set_oversize (s : Tiers (plainEnv true)) :
    seqStep (plainEnv true) s (.call (onK (.set oversize 0))) =
      ⟨s.mem, update s.db (ofString "k") (some ⟨.blob oversize, .never⟩)⟩ := by
  have hlen : oversize.length = Kv.VAL_LARGE + 1 := length_replicate
  have hrefused : (Kv.set (plainEnv true).kv (Ns.key none (ofString "k")) oversize 0).run s.mem =
      (s.mem, false) := by
    rw [Kv.set, if_neg (by decide), if_neg (by rw [hlen]; decide), if_neg (by rw [hlen]; decide)]
    rfl
  have hkey : fromUtf8Lossy (l2Key (plainEnv true) none (ofString "k")) = ofString "k" := by decide
  have hdo : doSet (plainEnv true) s.now (l2Key (plainEnv true) none (ofString "k")) oversize 0
      s.db =
      (update s.db (ofString "k") (some ⟨.blob oversize, .never⟩), .ok ()) := by
    rw [doSet, hkey]
    rfl
  rw [seqStep, code, onK, run_map, set, run_bind, run_withConn, hdo]
  dsimp only
  rw [run_afterwards, hrefused]
  rfl

/-- **The shared cache hides the database.** The `get` still returns the small value. -/
theorem front_stale :
    ¬ Run.Along (seqStep (plainEnv true)) (Shows (plainEnv true)) ⟨.init 0, fun _ => none⟩
      replaced := by
  rintro ⟨-, -, hshows, -⟩
  have hget := hshows rfl
  generalize hs : seqStep (plainEnv true) ⟨.init 0, fun _ => none⟩ (.call (onK (.set [1] 0))) = s
    at hget
  have hhit : ((Kv.get (plainEnv true).kv (Ns.key none (ofString "k"))).run s.mem).2 =
      some [1] := by
    rw [← hs]
    decide
  rw [set_oversize] at hget
  have hcode : ∀ db : Table (plainEnv true).doubles,
      ((code (plainEnv true) (onK .get)).run ⟨s.mem, db⟩).2 = .value (some [1]) := by
    intro db
    have hrun := get_hit rfl (s := ⟨s.mem, db⟩) (Prod.ext rfl hhit)
    rw [code, onK, run_map]
    exact congrArg (fun out => Kv.Res.value out.2) hrun
  have hkey : rowKey (plainEnv true) (onK .get) = ofString "k" := by decide
  rw [hcode, hkey, Tiers.holds, Table.live] at hget
  dsimp only at hget
  rw [update_self] at hget
  have hold : some [1] = some oversize := Kv.Res.value.inj hget
  rw [oversize, replicate_succ] at hold
  cases hold

/-- The same with a value that fits: the `get` returns it. -/
theorem front_shows_replaced :
    Run.Along (seqStep (plainEnv true)) (Shows (plainEnv true)) ⟨.init 0, fun _ => none⟩
      [.call (onK (.set [1] 0)), .call (onK (.set [2, 2] 5)), .call (onK .get)] := by
  refine front_shows (plainEnv true) rfl 0 _ (fun _ _ h => by cases h) _ ?_ ?_
  · intro c c' hc hc'
    have hk : ∀ c : Kv.Call, .call c ∈ [Kv.Op.call (onK (.set [1] 0)),
        .call (onK (.set [2, 2] 5)), .call (onK .get)] → ∃ req, c = onK req := by
      intro c hc
      simp only [mem_cons, Kv.Op.call.injEq, not_mem_nil, or_false] at hc
      rcases hc with rfl | rfl | rfl
      exacts [⟨_, rfl⟩, ⟨_, rfl⟩, ⟨_, rfl⟩]
    obtain ⟨req, rfl⟩ := hk c hc
    obtain ⟨req', rfl⟩ := hk c' hc'
    exact iff_of_true rfl rfl
  · decide

end Askr.Sql
