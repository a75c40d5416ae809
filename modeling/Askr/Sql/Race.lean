import Askr.Sql.Front

/-!
# Concurrent calls on one key

Several workers call `get`, `set`, `delete` and `increment` on one key, without expiry. Each call is
a statement followed by a call of the shared cache. A `get` that read its row before a write may put
what it read on the shelf after the writer has cleared or filled it, and so may an earlier `set`
(`race_stale`).

The shared cache agrees with the row once all calls have returned if a value is put on the shelf
only while the row still holds it (`Current`, `race_shows`): until then, what is on the shelf is
what the row holds, or a writer is on its way from its statement to the shelf.
-/

namespace Askr.Sql

open Conc Bytes Sqlite Function List Option Pool Run

/-! ## The stages of a call -/

section
variable (env : Env) (c : Kv.Call)

/-- About to put a value on the shelf. -/
def fill (v : Bytes) (ttl : Nat) (a : Kv.Res) : Prog (Tiers env) Kv.Res :=
  (front env (Kv.set env.kv c.key v ttl)).map fun _ => a

/-- About to clear the shelf. -/
def clear (a : Kv.Res) : Prog (Tiers env) Kv.Res :=
  (front env (Kv.delete env.kv c.key)).map fun _ => a

/-- A `get` that was not answered by the shared cache. -/
def lookUp : Prog (Tiers env) Kv.Res :=
  (withConn env fun now t => (t, doGetWithTtl now (l2Key env c.app c.name) t)).bind fun r =>
    match unwrapOr r none with
    | some (v, ttl) => fill env c v ttl (.value (some v))
    | none => .ret (.value none)

/-- What is left of a call that has written nothing yet. -/
inductive Reading : Prog (Tiers env) Kv.Res → Prop where
  | start : Reading (code env c)
  | lookUp : c.req = .get → Reading (lookUp env c)
  | populate (v : Bytes) : c.req = .get → Reading (fill env c v 0 (.value (some v)))

/-- What is left of a writer between its statement and the shelf. -/
inductive Writing : Prog (Tiers env) Kv.Res → Prop where
  | warm (v : Bytes) : v.length ≤ Kv.VAL_LARGE → Writing (fill env c v 0 (.flag true))
  | clear (a : Kv.Res) : Writing (clear env c a)

end

section
variable {env : Env} {c : Kv.Call}

theorem next_clear (a : Kv.Res) (s : Tiers env) :
    (clear env c a).next s = (⟨((Kv.delete env.kv c.key).run s.mem).1, s.db⟩, .ret a) := rfl

theorem next_lookUp (s : Tiers env) : (lookUp env c).next s = (s,
      match unwrapOr (doGetWithTtl s.now (l2Key env c.app c.name) s.db) none with
      | some (v, ttl) => fill env c v ttl (.value (some v))
      | none => .ret (.value none)) := rfl

theorem lookUp_eq : lookUp env c =
    ((withConn env fun now t => (t, doGetWithTtl now (l2Key env c.app c.name) t)).bind fun r =>
      match unwrapOr r none with
      | some (v, ttl) => (front env (Kv.set env.kv (Ns.key c.app c.name) v ttl)).map fun _ => some v
      | none => .ret none).map .value := by
  rw [lookUp, Prog.map_bind]
  congr 1
  funext r
  cases unwrapOr r none <;> rfl

theorem next_get (hl1 : env.l1 = true) (hreq : c.req = .get) (s : Tiers env) :
    (code env c).next s = (⟨((Kv.get env.kv c.key).run s.mem).1, s.db⟩,
      match ((Kv.get env.kv c.key).run s.mem).2 with
      | some v => .ret (.value (some v))
      | none => lookUp env c) := by
  have hcode : code env c = (get env c.app c.name).map .value := by rw [code, hreq]
  rw [hcode, Prog.next_map, get, if_pos hl1, lookUp_eq]
  refine Prod.ext rfl ?_
  change Prog.map _ (match ((Kv.get env.kv c.key).run s.mem).2 with
    | some v => _
    | none => _) = _
  cases ((Kv.get env.kv c.key).run s.mem).2 <;> rfl

theorem next_set (hl1 : env.l1 = true) {v : Bytes} {ttl : Nat} (hreq : c.req = .set v ttl)
    (s : Tiers env) :
    (code env c).next s = (⟨s.mem, (doSet env s.now (l2Key env c.app c.name) v ttl s.db).1⟩,
      match (doSet env s.now (l2Key env c.app c.name) v ttl s.db).2 with
      | .ok _ => fill env c v ttl (.flag true)
      | .error _ => .ret (.flag false)) := by
  have hcode : code env c = (set env c.app c.name v ttl).map .flag := by rw [code, hreq]
  rw [hcode, Prog.next_map, set]
  refine Prod.ext rfl ?_
  change Prog.map _ (match (doSet env s.now (l2Key env c.app c.name) v ttl s.db).2 with
    | .ok _ => afterwards env _ true
    | .error _ => .ret false) = _
  cases (doSet env s.now (l2Key env c.app c.name) v ttl s.db).2 with
  | ok _ =>
    dsimp only
    rw [afterwards, if_pos hl1]
    rfl
  | error _ => rfl

theorem next_delete (hl1 : env.l1 = true) (hreq : c.req = .delete) (s : Tiers env) :
    (code env c).next s = (⟨s.mem, (doDelete env (l2Key env c.app c.name) s.db).1⟩,
      clear env c (.flag (unwrapOr (doDelete env (l2Key env c.app c.name) s.db).2 false))) := by
  have hcode : code env c = (delete env c.app c.name).map .flag := by rw [code, hreq]
  rw [hcode, Prog.next_map, delete]
  refine Prod.ext rfl ?_
  change Prog.map _ (afterwards env _ _) = _
  rw [afterwards, if_pos hl1]
  rfl

theorem next_increment (hl1 : env.l1 = true) {delta : Int} {ttl : Nat}
    (hreq : c.req = .increment delta ttl) (s : Tiers env) : (code env c).next s =
      (⟨s.mem, (doIncrement env s.now (l2Key env c.app c.name) delta ttl s.db).1⟩,
        clear env c (.count (unwrapOr
          (doIncrement env s.now (l2Key env c.app c.name) delta ttl s.db).2 0))) := by
  have hcode : code env c = (increment env c.app c.name delta ttl).map .count := by rw [code, hreq]
  rw [hcode, Prog.next_map, increment]
  refine Prod.ext rfl ?_
  change Prog.map _ (afterwards env _ _) = _
  rw [afterwards, if_pos hl1]
  rfl

end

/-! ## Schedules -/

/-- The calls are on one key, without expiry, and with values that the shared cache takes. -/
def Racing (app : Option Ns.App) (name : Bytes) (c : Kv.Call) : Prop :=
  c.app = app ∧ c.name = name ∧
    match c.req with
    | .get => True
    | .set v ttl => v.length ≤ Kv.VAL_LARGE ∧ ttl = 0
    | .delete => True
    | .increment _ ttl => ttl = 0
    | _ => False

/-- No row of the table expires. -/
def Forever {d : Doubles} (t : Table d) : Prop := Deadlines (· = .never) t

section
variable (env : Env) (app : Option Ns.App) (name : Bytes)

/-- The workers, with the clock moving on. -/
abbrev Workers := Pool (Tiers env) Kv.Call Kv.Res

abbrev exec (P : Workers env) (e : Event Kv.Call Nat) : Workers env :=
  P.exec (code env) (fun d => tick d) e

/-- A value is put on the shelf only while the row holds it. -/
def Current (P : Workers env) (e : Event Kv.Call Nat) : Prop :=
  ∀ t c v ttl a, e = .step t → P.thread t = some (c, fill env c v ttl a) →
    P.shared.holds (rowKey env c) = some v

/-- What a schedule keeps, with the workers marked that are on their way from a statement to the
shelf. -/
structure RaceInv (writes : Nat → Bool) (P : Workers env) : Prop where
  sound : Kv.SoundBoth env.kv P.shared.mem
  forever : Forever P.shared.db
  stages : ∀ t c p, P.thread t = some (c, p) → Racing app name c ∧
    if writes t then Writing env c p else Reading env c p
  busy : ∀ t, writes t = true → P.thread t ≠ none
  fits : ∀ r e, P.shared.mem.shelf env.kv (Ns.key app name) r = some e →
    (∃ row, P.shared.db (fromUtf8Lossy (l2Key env app name)) = some row ∧ Fits row e) ∨
      ∃ t, writes t = true

end

variable {env : Env} {app : Option Ns.App} {name : Bytes} {writes : Nat → Bool} {P : Workers env}

/-- One worker goes on. -/
theorem RaceInv.settle (h : RaceInv env app name writes P) {t : Nat} {c : Kv.Call} {s : Tiers env}
    {p : Prog (Tiers env) Kv.Res} (hc : Racing app name c) (hsound : Kv.SoundBoth env.kv s.mem)
    (hforever : Forever s.db) (b : Bool) (hb : b = true → ∀ a, p ≠ .ret a)
    (hstage : (∀ a, p ≠ .ret a) → if b then Writing env c p else Reading env c p)
    (hfits : ∀ r e, s.mem.shelf env.kv (Ns.key app name) r = some e →
      (∃ row, s.db (fromUtf8Lossy (l2Key env app name)) = some row ∧ Fits row e) ∨
        b = true ∨ ∃ t', t' ≠ t ∧ writes t' = true) :
    RaceInv env app name (update writes t b) (P.settle t c s p) := by
  refine ⟨?_, ?_, ?_, ?_, ?_⟩
  · rwa [settle_shared]
  · rwa [settle_shared]
  · intro t' c' p' ht'
    rcases settle_thread_cases ht' with ⟨rfl, rfl, rfl, hret⟩ | ⟨hne, hold⟩
    · rw [update_self]
      exact ⟨hc, hstage hret⟩
    · rw [update_of_ne hne]
      exact h.stages t' c' p' hold
  · intro t' ht'
    by_cases hne : t' = t
    · subst hne
      rw [update_self] at ht'
      rw [settle_thread_of_ne_ret (hb ht')]
      exact some_ne_none _
    · rw [update_of_ne hne] at ht'
      rw [settle_thread_ne hne]
      exact h.busy t' ht'
  · intro r e he
    rw [settle_shared] at he ⊢
    rcases hfits r e he with hrow | rfl | ⟨t', hne, ht'⟩
    · exact .inl hrow
    · exact .inr ⟨t, update_self ..⟩
    · exact .inr ⟨t', by rwa [update_of_ne hne]⟩

/-- A worker that reads leaves the shelf to the others. -/
theorem RaceInv.fits_of_reading (h : RaceInv env app name writes P) {t : Nat}
    (ht : writes t = false) {r : Kv.Region} {e : Kv.Held}
    (he : P.shared.mem.shelf env.kv (Ns.key app name) r = some e) :
    (∃ row, P.shared.db (fromUtf8Lossy (l2Key env app name)) = some row ∧ Fits row e) ∨
      ∃ t', t' ≠ t ∧ writes t' = true := by
  refine (h.fits r e he).imp_right ?_
  rintro ⟨t', ht'⟩
  refine ⟨t', ?_, ht'⟩
  rintro rfl
  rw [ht] at ht'
  cases ht'

theorem fits_of_holds {s : Tiers env} (hforever : Forever s.db) {key v : Bytes}
    (h : s.holds key = some v) : ∃ row, s.db key = some row ∧ Fits row ⟨v, 0⟩ := by
  obtain ⟨row, hlive, hv⟩ := map_eq_some_iff.1 h
  obtain ⟨hrow, -⟩ := filter_eq_some_iff.1 hlive
  exact ⟨row, hrow, hv, hforever key row hrow⟩

/-! ### Statements without expiry -/

theorem doGetWithTtl_forever {t : Table env.doubles} (ht : Forever t) {now : Nat} {key v : Bytes}
    {ttl : Nat} (h : unwrapOr (doGetWithTtl now key t) none = some (v, ttl)) : ttl = 0 := by
  rw [doGetWithTtl] at h
  cases hrow : t.live now (fromUtf8Lossy key) with
  | none =>
    rw [hrow] at h
    cases h
  | some row =>
    obtain ⟨hdb, -⟩ := filter_eq_some_iff.1 hrow
    simp only [hrow, ht _ row hdb, restOf, Except.map, unwrapOr, Option.some.injEq,
      Prod.mk.injEq] at h
    exact h.2.symm

/-! ### The actions -/

section
variable {t : Nat} {c : Kv.Call} {p : Prog (Tiers env) Kv.Res}

theorem RaceInv.start (hl1 : env.l1 = true) (h : RaceInv env app name writes P)
    (hw : writes t = false) (hc : Racing app name c) : ∃ writes', RaceInv env app name writes'
      (P.settle t c ((code env c).next P.shared).1 ((code env c).next P.shared).2) := by
  have hwriter : ∀ {s : Tiers env} {p : Prog (Tiers env) Kv.Res}, s.mem = P.shared.mem →
      Forever s.db → Writing env c p → (∀ a, p ≠ .ret a) →
      RaceInv env app name (update writes t true) (P.settle t c s p) :=
    fun hmem hforever hwrite hret => h.settle hc (hmem ▸ h.sound) hforever true (fun _ => hret)
      (fun _ => hwrite) fun _ _ _ => .inr (.inl rfl)
  have hc' := hc
  obtain ⟨rfl, rfl, hallowed⟩ := hc'
  cases hreq : c.req with
  | get =>
    obtain ⟨hsound, -, hsub, -⟩ := Kv.get_left h.sound c.key
    have hreader : ∀ p, ((∀ a, p ≠ .ret a) → Reading env c p) →
        RaceInv env c.app c.name (update writes t false)
          (P.settle t c ⟨((Kv.get env.kv c.key).run P.shared.mem).1, P.shared.db⟩ p) :=
      fun p hp => h.settle (s := ⟨_, P.shared.db⟩) hc hsound h.forever false
        (fun hb => by cases hb) hp
        fun r e he => (h.fits_of_reading hw (hsub _ r e he)).imp_right .inr
    rw [next_get hl1 hreq]
    cases ((Kv.get env.kv c.key).run P.shared.mem).2 with
    | some v => exact ⟨_, hreader _ fun hret => absurd rfl (hret _)⟩
    | none => exact ⟨_, hreader _ fun _ => .lookUp hreq⟩
  | set v ttl =>
    rw [hreq] at hallowed
    obtain ⟨hsize, rfl⟩ := hallowed
    have hforever : Forever (doSet env P.shared.now (l2Key env c.app c.name) v 0 P.shared.db).1 :=
      h.forever.doSet rfl
    rw [next_set hl1 hreq]
    cases hdo : (doSet env P.shared.now (l2Key env c.app c.name) v 0 P.shared.db).2 with
    | ok _ => exact ⟨_, hwriter rfl hforever (.warm v hsize) (fun a ha => by cases ha)⟩
    | error err =>
      have hsame : (doSet env P.shared.now (l2Key env c.app c.name) v 0 P.shared.db).1 =
          P.shared.db := by
        rw [doSet, upsert] at hdo ⊢
        split at hdo
        · cases hdo
        · rename_i htakes
          rw [if_neg htakes]
      rw [hsame]
      exact ⟨_, h.settle hc h.sound h.forever false (fun hb => by cases hb)
        (fun hret => absurd rfl (hret _))
        fun r e he => (h.fits_of_reading hw he).imp_right .inr⟩
  | delete =>
    rw [next_delete hl1 hreq]
    exact ⟨_, hwriter rfl h.forever.doDelete (.clear _) (fun a ha => by cases ha)⟩
  | increment delta ttl =>
    rw [hreq] at hallowed
    obtain rfl : ttl = 0 := hallowed
    rw [next_increment hl1 hreq]
    exact ⟨_, hwriter rfl (h.forever.doIncrement rfl) (.clear _)
      (fun a ha => by cases ha)⟩
  | add v ttl =>
    rw [hreq] at hallowed
    exact hallowed.elim
  | touch ttl =>
    rw [hreq] at hallowed
    exact hallowed.elim

/-- What is put on the shelf is what the row holds. -/
theorem RaceInv.filled (h : RaceInv env app name writes P) (hc : Racing app name c) {v : Bytes}
    (hcur : P.shared.holds (rowKey env c) = some v) {r : Kv.Region} {e : Kv.Held}
    (he : ((Kv.set env.kv c.key v 0).run P.shared.mem).1.shelf env.kv (Ns.key app name) r =
      some e) : (∃ row, P.shared.db (fromUtf8Lossy (l2Key env app name)) = some row ∧ Fits row e) ∨
      (Kv.VAL_LARGE < v.length ∧ P.shared.mem.shelf env.kv (Ns.key app name) r = some e) := by
  obtain ⟨rfl, rfl, -⟩ := hc
  refine ((Kv.set_left h.sound c.key v 0).here r e he).imp_left ?_
  rintro rfl
  exact fits_of_holds h.forever hcur

/-- **One action of a worker.** -/
theorem RaceInv.step (hl1 : env.l1 = true) (h : RaceInv env app name writes P)
    (ht : P.thread t = some (c, p)) (hcur : Current env P (.step t)) :
    ∃ writes', RaceInv env app name writes'
      (P.settle t c (p.next P.shared).1 (p.next P.shared).2) := by
  obtain ⟨hc, hstage⟩ := h.stages t c p ht
  have hends : ∀ {s : Tiers env} {a : Kv.Res}, Kv.SoundBoth env.kv s.mem → Forever s.db →
      (∀ r e, s.mem.shelf env.kv (Ns.key app name) r = some e →
        (∃ row, s.db (fromUtf8Lossy (l2Key env app name)) = some row ∧ Fits row e) ∨
          ∃ t', t' ≠ t ∧ writes t' = true) →
      ∃ writes', RaceInv env app name writes' (P.settle t c s (.ret a)) :=
    fun hsound hforever hfits => ⟨_, h.settle hc hsound hforever false (fun hb => by cases hb)
      (fun hret => absurd rfl (hret _)) fun r e he => (hfits r e he).imp_right .inr⟩
  cases hw : writes t with
  | false =>
    rw [hw] at hstage
    cases (hstage : Reading env c p) with
    | start => exact h.start hl1 hw hc
    | lookUp hreq =>
      rw [next_lookUp]
      cases hrow : unwrapOr (doGetWithTtl P.shared.now (l2Key env c.app c.name) P.shared.db)
          none with
      | none => exact hends h.sound h.forever fun r e he => h.fits_of_reading hw he
      | some q =>
        obtain ⟨v, ttl⟩ := q
        obtain rfl := doGetWithTtl_forever h.forever hrow
        refine ⟨_, h.settle hc h.sound h.forever false (fun hb => by cases hb)
          (fun _ => .populate v hreq) fun r e he => ?_⟩
        exact (h.fits_of_reading hw he).imp_right .inr
    | populate v hreq =>
      have hv := hcur t c v 0 _ rfl ht
      refine hends (Kv.set_left h.sound c.key v 0).sound h.forever fun r e he => ?_
      rcases h.filled hc hv he with hrow | ⟨-, hold⟩
      · exact .inl hrow
      · exact h.fits_of_reading hw hold
  | true =>
    rw [hw] at hstage
    cases (hstage : Writing env c p) with
    | warm v hsize =>
      have hv := hcur t c v 0 _ rfl ht
      refine hends (Kv.set_left h.sound c.key v 0).sound h.forever fun r e he => ?_
      rcases h.filled hc hv he with hrow | ⟨hlarge, -⟩
      · exact .inl hrow
      · exact absurd hsize (Nat.not_le.2 hlarge)
    | clear a =>
      refine hends (Kv.delete_served h.sound c.key).sound h.forever fun r e he => ?_
      obtain ⟨rfl, rfl, -⟩ := hc
      rw [next_clear] at he
      rw [show Ns.key c.app c.name = c.key from rfl, Kv.delete_left h.sound] at he
      cases he

end

/-- Every event keeps it. -/
theorem RaceInv.exec (hl1 : env.l1 = true) (h : ∃ writes, RaceInv env app name writes P)
    {e : Event Kv.Call Nat} (hcall : ∀ t c, e = .call t c → Racing app name c)
    (hcur : Current env P e) : ∃ writes, RaceInv env app name writes (exec env P e) := by
  obtain ⟨writes, h⟩ := h
  cases e with
  | call t c =>
    rw [Sql.exec, Pool.exec]
    cases ht : P.thread t with
    | some x => exact ⟨writes, h⟩
    | none =>
      have hw : writes t = false := Bool.eq_false_iff.2 fun htrue => h.busy t htrue ht
      exact ⟨_, h.settle (hcall t c rfl) h.sound h.forever false (fun hb => by cases hb)
        (fun _ => .start) fun r e he => (h.fits_of_reading hw he).imp_right .inr⟩
  | step t =>
    cases ht : P.thread t with
    | none =>
      rw [Sql.exec, Pool.exec, ht]
      exact ⟨writes, h⟩
    | some x =>
      obtain ⟨c, p⟩ := x
      have hstep := h.step hl1 ht hcur
      rw [Sql.exec, Pool.exec, ht]
      cases p with
      | ret a => exact ⟨writes, h⟩
      | act u n => exact hstep
  | env d => exact ⟨writes, fun r => (h.sound r).congr rfl, h.forever, h.stages, h.busy, h.fits⟩

/-- **The shared cache stays coherent under concurrency**, as long as a value is put on the shelf
only while the row holds it: once all calls have returned, `get` shows the row. -/
theorem race_shows (env : Env) (hl1 : env.l1 = true) (app : Option Ns.App) (name : Bytes)
    (now : Nat) (db : Table env.doubles) (hdb : Forever db) (es : List (Event Kv.Call Nat))
    (hcalls : ∀ t c, .call t c ∈ es → Racing app name c)
    (hcur : Run.Along (exec env) (Current env) (.start ⟨.init now, db⟩) es)
    (hidle : ∀ t, (runs (exec env) (.start ⟨.init now, db⟩) es).thread t = none) :
    let s := (runs (exec env) (.start ⟨.init now, db⟩) es).shared
    ((code env ⟨app, name, .get⟩).run s).2 =
      .value (s.holds (fromUtf8Lossy (l2Key env app name))) := by
  intro s
  have hstart : RaceInv env app name (fun _ => false) (.start ⟨.init now, db⟩) := by
    refine ⟨fun r => Kv.sound_init _ r now, hdb, fun t c p ht => ?_, fun t ht => ?_,
      fun r e he => ?_⟩
    · cases ht
    · cases ht
    · rw [Pool.start, Kv.shelf_init] at he
      cases he
  obtain ⟨writes, hend⟩ := (hcur.and_mem (D := fun e => e ∈ es) fun _ => id).inv
    (I := fun P => ∃ writes, RaceInv env app name writes P)
    (fun P e he h => RaceInv.exec hl1 h (fun t c hc => hcalls t c (hc ▸ he.2)) he.1)
    ⟨_, hstart⟩
  have hcoherent : Coherent env (fun c => c.app = app ∧ c.name = name) s := by
    refine ⟨hend.sound, fun k row hrow => ?_, ?_⟩
    · rw [hend.forever k row hrow]
      trivial
    · rintro c ⟨rfl, rfl⟩ r e he
      rcases hend.fits r e he with hrow | ⟨t, ht⟩
      · exact .inr hrow
      · exact absurd (hidle t) (hend.busy t ht)
  have hsame : SameRows env fun c => c.app = app ∧ c.name = name := by
    rintro c c' ⟨rfl, rfl⟩ ⟨happ, hname⟩
    refine iff_of_true ?_ ?_
    · rw [rowKey, rowKey, happ, hname]
    · rw [Kv.Call.key, Kv.Call.key, happ, hname]
  have hget := hcoherent.get (c := ⟨app, name, .get⟩) hl1 hsame ⟨rfl, rfl⟩ fun row hrow => by
    rw [hend.forever _ row hrow]
    exact Deadline.noConfusion
  rw [code, Prog.run_map]
  exact congrArg Kv.Res.value hget.2

/-- One worker reads the row of `k`, and before it puts what it read on the shelf another one
replaces the value. -/
def lateFill : List (Event Kv.Call Nat) :=
  [.call 0 (onK .get), .step 0, .step 0, .call 1 (onK (.set [2] 0)), .step 1, .step 1, .step 0]

/-- **A late reader leaves an old value.** Both calls have returned, the row holds the new value,
and `get` returns the old one. -/
theorem race_stale : let s : Tiers (plainEnv true) := ⟨.init 0, fun k =>
      if k = ofString "k" then some ⟨.blob [1], .never⟩ else none⟩
    let P := runs (exec (plainEnv true)) (.start s) lateFill
    (∀ t c, .call t c ∈ lateFill → Racing none (ofString "k") c) ∧ (∀ t, P.thread t = none) ∧
      ((code (plainEnv true) (onK .get)).run P.shared).2 = .value (some [1]) ∧
      P.shared.holds (ofString "k") = some [2] := by
  intro s P
  have hmem : ∀ t c, .call t c ∈ lateFill → t ∈ [0, 1] ∧ Racing none (ofString "k") c := by
    intro t c h
    simp only [lateFill, mem_cons, Event.call.injEq, reduceCtorEq, not_mem_nil, or_false,
      false_or] at h
    rcases h with ⟨rfl, rfl⟩ | ⟨rfl, rfl⟩
    · exact ⟨by decide, rfl, rfl, trivial⟩
    · exact ⟨by decide, rfl, rfl, by decide, rfl⟩
  refine ⟨fun t c h => (hmem t c h).2,
    idle_all [0, 1] (fun _ => rfl) (fun t c h => (hmem t c h).1)
    ?_, by decide, by decide⟩
  have hnone : (P.thread 0).isNone = true ∧ (P.thread 1).isNone = true := by decide
  simpa using hnone

theorem fill_inj (now : Nat) (db : Table env.doubles) (r : Kv.Region) {c : Kv.Call}
    {p : Prog (Tiers env) Kv.Res} {v w : Bytes} {ttl : Nat} {a : Kv.Res}
    (hp : p = fill env c v ttl a)
    (h : (((p.next ⟨.init now, db⟩).1.mem.shelf env.kv c.key r).map (·.val)) = some w) : v = w := by
  subst hp
  obtain ⟨e, he, hval⟩ := map_eq_some_iff.1 h
  have hleft := Kv.set_left (fun r => Kv.sound_init env.kv r now) c.key v ttl
  rcases hleft.here r e he with rfl | ⟨-, hold⟩
  · exact hval
  · rw [Kv.shelf_init] at hold
    cases hold

/-- The next action of worker `t` is not the last one of its call, or it puts what the row holds on
the shelf. -/
def currentAt (P : Workers env) (t : Nat) : Bool :=
  match P.thread t with
  | none => true
  | some (c, p) => (p.next P.shared).2.result?.isNone ||
    ((P.shared.holds (rowKey env c)).isSome &&
      ((p.next ⟨.init 0, P.shared.db⟩).1.mem.shelf env.kv c.key .small).map (·.val) =
        P.shared.holds (rowKey env c))

theorem current_of_at {P : Workers env} {t : Nat} (h : currentAt P t = true) :
    Current env P (.step t) := by
  intro t' c v ttl a he ht
  cases he
  rw [currentAt, ht] at h
  simp only [Bool.or_eq_true, Bool.and_eq_true, decide_eq_true_eq] at h
  rcases h with h | ⟨hsome, hshelf⟩
  · cases h
  · obtain ⟨w, hw⟩ := isSome_iff_exists.1 hsome
    rw [hw, fill_inj 0 P.shared.db .small rfl (hshelf.trans hw)]

/-- One worker stores a value. Another one finds nothing on the shelf before that, and the new value
in the row before the first one has put it on the shelf. -/
def crossed : List (Event Kv.Call Nat) :=
  [.call 0 (onK (.set [2] 0)), .call 1 (onK .get), .step 1, .step 0, .step 1, .step 1, .step 0]

/-- Both put the value on the shelf, and it is what the row holds. -/
theorem race_shows_crossed : let s : Tiers (plainEnv true) := (runs (exec (plainEnv true))
      (.start ⟨.init 0, fun _ => none⟩) crossed).shared
    ((code (plainEnv true) ⟨none, ofString "k", .get⟩).run s).2 =
      .value (s.holds (fromUtf8Lossy (l2Key (plainEnv true) none (ofString "k")))) := by
  have hmem : ∀ t c, .call t c ∈ crossed → t ∈ [0, 1] ∧ Racing none (ofString "k") c := by
    intro t c h
    simp only [crossed, mem_cons, Event.call.injEq, reduceCtorEq, not_mem_nil, or_false] at h
    rcases h with ⟨rfl, rfl⟩ | ⟨rfl, rfl⟩
    · exact ⟨by decide, rfl, rfl, by decide, rfl⟩
    · exact ⟨by decide, rfl, rfl, trivial⟩
  have hcall : ∀ (P : Workers (plainEnv true)) t c, Current (plainEnv true) P (.call t c) :=
    fun P t c t' c' v ttl a he => by cases he
  refine race_shows (plainEnv true) rfl none (ofString "k") 0 (fun _ => none)
    (fun _ _ h => by cases h) crossed (fun t c h => (hmem t c h).2) ?_ ?_
  · refine ⟨hcall _ _ _, hcall _ _ _, current_of_at ?_, current_of_at ?_, current_of_at ?_,
      current_of_at ?_, current_of_at ?_, trivial⟩
    all_goals decide +kernel
  · refine idle_all [0, 1] (fun _ => rfl) (fun t c h => (hmem t c h).1) ?_
    have hnone : ((runs (exec (plainEnv true)) (.start ⟨.init 0, fun _ => none⟩)
        crossed).thread 0).isNone = true ∧ ((runs (exec (plainEnv true))
          (.start ⟨.init 0, fun _ => none⟩) crossed).thread 1).isNone = true := by decide +kernel
    simpa using hnone

end Askr.Sql
