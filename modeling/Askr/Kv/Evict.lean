import Askr.Kv.Shelf

/-!
# What a call leaves on the shelves

Without room in its window, a `set` evicts an entry of another key. Seen from the shelves this is
harmless: a value is on the shelf of a key after a `set` only if it was there before, or it is the
one that was set (`set_left`). The same holds of `get` and `delete`, which take from shelves at
most.
-/

namespace Askr.Kv

open Conc Prog Function

variable {g : Config} {r : Region} {key k : Bytes} {s s' : Mem} {o : Option Nat}

theorem Held.expired_mono {e : Held} {now now' : Nat} (h : e.expired now = true)
    (hle : now ≤ now') : e.expired now' = true := by
  simp only [Held.expired, Bool.and_eq_true, decide_eq_true_eq] at h ⊢
  omega

theorem Sound.shelf_unmapped (hs : Sound g r s) (hslots : g.slots r = 0) (k : Bytes) :
    s.shelf g k r = none :=
  hs.shelf_eq (o := none) fun i hi => (hs.place k i hi).1 hslots

theorem Sound.shelf_long (hs : Sound g r s) (hlen : k.length > KEY_MAX) : s.shelf g k r = none := by
  refine hs.shelf_eq (o := none) fun i hi => ?_
  obtain ⟨-, -, hle, rfl⟩ := Entry.matches_iff.1 hi
  exact Nat.not_lt.2 hle hlen

theorem shelf_init (g : Config) (now : Nat) (k : Bytes) (r : Region) :
    (Mem.init now).shelf g k r = none := by
  refine (sound_init g r now).shelf_eq (o := none) fun i hi => ?_
  simp [HasAt, Mem.init, Entry.zeroed, Entry.matches] at hi

theorem shelf_write_of_ne (hs : SoundBoth g s) (ho : At g r key s o) (hlen : key.length ≤ KEY_MAX)
    (hslots : g.slots r ≠ 0) {t : Nat} (ht : o = some t ∨ (o = none ∧ Place g r key s t))
    (val : Bytes) (expires : Nat) (hk : k ≠ key) :
    (s.write r t key val (g.hash key) expires).shelf g k r = s.shelf g k r ∨
      (s.write r t key val (g.hash key) expires).shelf g k r = none := by
  have hother : ¬ HasAt g r k (s.write r t key val (g.hash key) expires) t := by
    intro h
    rw [HasAt, Mem.write, Mem.put_self] at h
    exact hk (Entry.matches_iff.1 h).2.2.2.symm
  by_cases hhas : HasAt g r k s t
  · right
    refine ((hs r).write_at ho hlen hslots ht val expires).shelf_eq (o := none) fun i hi => ?_
    have hit : i ≠ t := fun h => hother (h ▸ hi)
    rw [HasAt, Mem.write, Mem.put_ne _ _ _ _ hit] at hi
    exact hit ((hs r).unique k i t hi hhas)
  · left
    refine shelf_put_of_not hhas (Bool.eq_false_iff.2 fun h => hk ?_)
    exact (Entry.matches_iff.1 h).2.2.2.symm

theorem Region.set_left (hs : SoundBoth g s) (hlen : key.length ≤ KEY_MAX) (val : Bytes)
    (ttl : Nat) : Stays g r s ((r.set g key val (g.hash key) ttl).run s).1 ∧
      (val.length ≤ r.valMax → ∀ e,
        ((r.set g key val (g.hash key) ttl).run s).1.shelf g key r = some e →
          e = ⟨val, deadline s.nowSecs ttl⟩) ∧
      ∀ k, k ≠ key → ∀ e, ((r.set g key val (g.hash key) ttl).run s).1.shelf g k r = some e →
        s.shelf g k r = some e := by
  refine ⟨set_leaves hs r hlen val ttl, ?_⟩
  by_cases hslots : g.slots r = 0
  · have hrun : (r.set g key val (g.hash key) ttl).run s = (s, false) := by
      rw [Region.set, if_pos hslots, run_ret]
    rw [hrun]
    refine ⟨fun _ e he => ?_, fun _ _ _ => id⟩
    rw [(hs r).shelf_unmapped hslots] at he
    cases he
  by_cases hval : val.length ≤ r.valMax
  · obtain ⟨o, ho⟩ := exists_at g r key s
    obtain ⟨t, ht, hrun⟩ := Region.set_run (hs r) ho hslots hval ttl
    rw [hrun]
    refine ⟨fun _ e he => ?_, fun k hk e he => ?_⟩
    · have hhas : HasAt g r key
          (s.write r t key val (g.hash key) (deadline s.nowSecs ttl)) t := by
        simp [HasAt, Mem.write, Entry.matches, hlen]
      have hsound := (hs r).write_at ho hlen hslots ht val (deadline s.nowSecs ttl)
      rw [hsound.shelf_eq (o := some t) hhas, Option.map_some, Option.some.injEq] at he
      rw [← he]
      simp [Mem.write, Entry.held]
    · rcases shelf_write_of_ne hs ho hlen hslots ht val (deadline s.nowSecs ttl) hk with h | h
      · exact h ▸ he
      · rw [h] at he
        cases he
  · have hrun : (r.set g key val (g.hash key) ttl).run s = (s, false) := by
      rw [Region.set, if_neg hslots, if_pos (Nat.not_le.1 hval), run_ret]
    rw [hrun]
    exact ⟨fun h => absurd h hval, fun _ _ _ => id⟩

/-- What a `set` leaves: on the shelf of its key the value that was set, or what was there when that
is too large for the cache, and on the others nothing new. -/
structure SetLeft (g : Config) (key val : Bytes) (ttl : Nat) (s s' : Mem) : Prop where
  sound : SoundBoth g s'
  clock : s'.nowMs = s.nowMs
  here : ∀ r e, s'.shelf g key r = some e →
    e = ⟨val, deadline s.nowSecs ttl⟩ ∨ (VAL_LARGE < val.length ∧ s.shelf g key r = some e)
  others : ∀ k, k ≠ key → ∀ r e, s'.shelf g k r = some e → s.shelf g k r = some e

theorem setLeft_of_fits (hs : SoundBoth g s) (hlen : key.length ≤ KEY_MAX) {r r' : Region}
    (hr : r' ≠ r) (hall : ∀ x : Region, x = r ∨ x = r') {val : Bytes} (hval : val.length ≤ r.valMax)
    (ttl : Nat) : SetLeft g key val ttl s (((r'.delete g key (g.hash key)).bind fun _ =>
      r.set g key val (g.hash key) ttl).run s).1 := by
  rw [run_bind]
  have hdel := (Region.delete_serves hs r' key).served
  obtain ⟨hstay, hhere, hothers⟩ := Region.set_left (r := r) hdel.sound hlen val ttl
  refine ⟨hstay.sound, hstay.clock.trans hdel.clock, fun x e he => ?_, fun k hk x e he => ?_⟩
  · rcases hall x with rfl | rfl
    · left
      rw [← hdel.nowSecs]
      exact hhere hval e he
    · rw [shelf_congr (hstay.other x hr), hdel.here] at he
      simp [Shelf.deleteAt, Shelf.put] at he
  · rw [← hdel.others k hk]
    rcases hall x with rfl | rfl
    · exact hothers k hk e he
    · rwa [shelf_congr (hstay.other x hr)] at he

theorem set_left (hs : SoundBoth g s) (key val : Bytes) (ttl : Nat) :
    SetLeft g key val ttl s ((set g key val ttl).run s).1 := by
  rw [set]
  split
  · rename_i hlen
    refine ⟨hs, rfl, fun r e he => ?_, fun _ _ _ _ => id⟩
    rw [run_ret, (hs r).shelf_long hlen] at he
    cases he
  rename_i hlen
  split
  · rename_i hval
    refine setLeft_of_fits hs (Nat.not_lt.1 hlen) (r := .small) (by decide) (fun x => ?_) hval ttl
    cases x <;> simp
  · split
    · rename_i hval
      refine setLeft_of_fits hs (Nat.not_lt.1 hlen) (r := .large) (by decide) (fun x => ?_) hval ttl
      cases x <;> simp
    · rename_i hval
      exact ⟨hs, rfl, fun r e he => .inr ⟨Nat.not_le.1 hval, he⟩, fun _ _ _ _ => id⟩

theorem delete_left (hs : SoundBoth g s) (key : Bytes) (r : Region) :
    ((delete g key).run s).1.shelf g key r = none := by
  rw [(delete_served hs key).here]
  cases r <;> simp [Shelf.delete, Shelf.deleteAt, Shelf.put]

theorem Shelf.getAt_cases (r : Region) (now : Nat) (m : Shelf) :
    (∃ e, m r = some e ∧ e.expired now = false ∧ getAt r now m = (m, some e.val)) ∨
      getAt r now m = (m.put r none, none) := by
  rw [getAt]
  cases hm : m r with
  | none =>
    have hput : m.put r none = m := by rw [put, ← hm, update_eq_self]
    exact .inr (by rw [hput])
  | some e =>
    cases hexp : e.expired now with
    | true => exact .inr (if_pos hexp)
    | false => exact .inl ⟨e, rfl, hexp, if_neg (by simp [hexp])⟩

theorem Shelf.get_cases (now : Nat) (m : Shelf) :
    (∃ r e m', m r = some e ∧ e.expired now = false ∧ (∀ x e, m' x = some e → m x = some e) ∧
        get now m = (m', some e.val)) ∨ get now m = (fun _ => none, none) := by
  rw [get]
  have hput : ∀ x e, m.put .small none x = some e → m x = some e := by
    intro x e he
    cases x with
    | small => simp [put] at he
    | large => simpa [put] using he
  rcases getAt_cases .small now m with ⟨e, he, hexp, hget⟩ | hget
  · exact .inl ⟨.small, e, m, he, hexp, fun _ _ => id, by rw [hget]; rfl⟩
  · rw [hget]
    rcases getAt_cases .large now (m.put .small none) with ⟨e, he, hexp, hget⟩ | hget
    · exact .inl ⟨.large, e, m.put .small none, hput _ _ he, hexp, hput, by rw [hget]; rfl⟩
    · right
      rw [hget]
      refine Prod.ext (funext fun x => ?_) rfl
      cases x <;> simp [put]

theorem get_left (hs : SoundBoth g s) (key : Bytes) :
    SoundBoth g ((get g key).run s).1 ∧ ((get g key).run s).1.nowMs = s.nowMs ∧
      (∀ k r e, ((get g key).run s).1.shelf g k r = some e → s.shelf g k r = some e) ∧
      ((∃ r e, s.shelf g key r = some e ∧ e.expired s.nowSecs = false ∧
          ((get g key).run s).2 = some e.val) ∨
        (((get g key).run s).2 = none ∧ ∀ r, ((get g key).run s).1.shelf g key r = none)) := by
  by_cases hlen : key.length ≤ KEY_MAX
  · have hget := get_served hs hlen
    have hothers : ∀ k, k ≠ key → ∀ r e, ((get g key).run s).1.shelf g k r = some e →
        s.shelf g k r = some e := fun k hk r e he => hget.others k hk ▸ he
    refine ⟨hget.sound, hget.clock, ?_⟩
    rcases Shelf.get_cases s.nowSecs (s.shelf g key) with ⟨r, e, m', he, hexp, hsub, hspec⟩ | hspec
    · have hhere := hget.here
      have hres := hget.res
      rw [hspec] at hhere hres
      refine ⟨fun k x f hf => ?_, .inl ⟨r, e, he, hexp, hres⟩⟩
      by_cases hk : k = key
      · subst hk
        rw [hhere] at hf
        exact hsub x f hf
      · exact hothers k hk x f hf
    · have hhere := hget.here
      have hres := hget.res
      rw [hspec] at hhere hres
      refine ⟨fun k x f hf => ?_, .inr ⟨hres, fun r => by rw [hhere]⟩⟩
      by_cases hk : k = key
      · subst hk
        rw [hhere] at hf
        cases hf
      · exact hothers k hk x f hf
  · rw [get, if_pos (Nat.not_le.1 hlen), run_ret]
    exact ⟨hs, rfl, fun _ _ _ => id, .inr ⟨rfl, fun r => (hs r).shelf_long (Nat.not_le.1 hlen)⟩⟩

/-! ## Runs of calls and flushes -/

/-- A call, a flush of an application, or time goes by. -/
inductive MapOp where
  | call (c : Call)
  | flush (app : Ns.App)
  | tick (d : Nat)

/-- The two regions, with the answers they have given. -/
def tableStep (g : Config) (x : Mem × List Res) : MapOp → Mem × List Res
  | .call c => (((code g c).run x.1).1, x.2 ++ [((code g c).run x.1).2])
  | .flush app => (((flushApp g app).run x.1).1, x.2)
  | .tick d => (tick d x.1, x.2)

/-- A map from keys to shelves, with a clock and the answers it has given. -/
structure MapState where
  shelf : Bytes → Shelf
  nowMs : Nat
  log : List Res

def MapState.step (g : Config) (m : MapState) : MapOp → MapState
  | .call c =>
    let out := Shelf.serve g (m.nowMs / 1000) (m.shelf c.key) c.key c.req
    { m with shelf := update m.shelf c.key out.1, log := m.log ++ [out.2] }
  | .flush app =>
    { m with shelf := fun k => if app.prefixBytes.isPrefixOf k then fun _ => none else m.shelf k }
  | .tick d => { m with nowMs := m.nowMs + d }

/-- A call finds room for its key. -/
def Ample (g : Config) (x : Mem × List Res) : MapOp → Prop
  | .call c => RoomBoth g c.key x.1
  | _ => True

instance (x : Mem × List Res) : (op : MapOp) → Decidable (Ample g x op)
  | .call c => inferInstanceAs (Decidable (RoomBoth g c.key x.1))
  | .flush _ | .tick _ => .isTrue trivial

/-- The regions hold what the map holds, and have given the same answers. -/
structure Mirrors (g : Config) (x : Mem × List Res) (m : MapState) : Prop where
  sound : SoundBoth g x.1
  shelf : ∀ k, x.1.shelf g k = m.shelf k
  clock : x.1.nowMs = m.nowMs
  log : x.2 = m.log

/-- **One operation** with ample room, on the table and on the map. -/
theorem Mirrors.step {x : Mem × List Res} {m : MapState} (h : Mirrors g x m) {op : MapOp}
    (hop : Ample g x op) : Mirrors g (tableStep g x op) (m.step g op) := by
  cases op with
  | tick d => exact ⟨fun r => (h.sound r).congr rfl, h.shelf, congrArg (· + d) h.clock, h.log⟩
  | flush app =>
    obtain ⟨hsound, hclock, hshelf⟩ := flushApp_shelf h.sound app
    refine ⟨hsound, fun k => ?_, hclock.trans h.clock, h.log⟩
    rw [tableStep, hshelf, h.shelf]
    rfl
  | call c =>
    have hs := code_serves h.sound c hop
    rw [Mem.nowSecs, h.clock, h.shelf] at hs
    refine ⟨hs.sound, fun k => ?_, hs.clock.trans h.clock, ?_⟩
    · show _ = update m.shelf c.key _ k
      rcases eq_or_ne k c.key with rfl | hk
      · rw [update_self]
        exact hs.here
      · rw [update_of_ne hk]
        exact (hs.others k hk).trans (h.shelf k)
    · show x.2 ++ [_] = m.log ++ [_]
      rw [h.log, hs.res]

/-- **The cache is a map.** In every run of calls and flushes in which the calls find room, the two
regions answer what a map from keys to shelves answers, and hold what it holds. -/
theorem cache_is_map (g : Config) (now : Nat) {ops : List MapOp}
    (hroom : Run.Along (tableStep g) (Ample g) (.init now, []) ops) :
    Mirrors g (Run.runs (tableStep g) (.init now, []) ops)
      (Run.runs (MapState.step g) ⟨fun _ _ => none, now, []⟩ ops) := by
  refine hroom.sim (fun x m op hop h => h.step hop) ⟨soundBoth_ran g now [], fun k => ?_, rfl, rfl⟩
  exact funext fun r => shelf_init g now k r

/-- A value is set and read, and its application is flushed. -/
def flushedRun (app : Ns.App) : List MapOp :=
  [.call ⟨some app, [107], .set [1] 0⟩, .tick 5, .call ⟨some app, [107], .get⟩, .flush app,
    .call ⟨some app, [107], .get⟩]

theorem cache_is_map_flushed :
    (Run.runs (tableStep both) (.init 0, [])
      (flushedRun ⟨List.replicate 16 97, by decide, by decide⟩)).2 =
      [.flag true, .value (some [1]), .value none] :=
  (cache_is_map both 0 (by decide +kernel)).log.trans (by decide +kernel)

end Askr.Kv
