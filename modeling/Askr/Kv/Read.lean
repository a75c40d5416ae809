import Askr.Kv.Seqlock
import Askr.Kv.Walk

/-!
# The lock-free read

The callers of a region: each reads it with `get`, or updates a slot as `set`, `add`, `increment`,
`touch` and `delete` do under the slot lock. No caller dies. A `get` that returns a value returns
the whole value of a write of its key, and its slot held that at an instant of the call
(`get_seen`). The version is a `u64`, so this needs fewer than 2^63 updates of a slot during the
call: after 2^63 of them a reader that slept between its loads does not notice (`get_mixed`).
-/

namespace Askr.Kv

open Conc Conc.Prog Function List Cells Run Pool

/-! ## Callers -/

/-- A key and a value that fit a slot. -/
structure Item (r : Region) where
  key : Bytes
  val : Bytes
  key_le : key.length ≤ KEY_MAX
  val_le : val.length ≤ r.valMax
deriving DecidableEq

/-- The updates of a slot: `write`, `mark_state(e, 2)` and `mark_expires`. -/
inductive Update (r : Region) where
  | write (item : Item r) (expires now : Nat)
  | bury
  | touch (expires : Nat)
deriving DecidableEq

def Update.stores (g : Config) {r : Region} : Update r → List (Field × Nat)
  | .write item expires now => fill item.key item.val (g.hash item.key) expires now
  | .bury => [(.state, 2)]
  | .touch expires => [(.expiresAt, expires)]

/-- A read of the region, or an update of a slot as the other functions make it. -/
inductive SlotReq (r : Region) where
  | get (key : Bytes) (now : Nat)
  | update (i : Nat) (u : Update r)
deriving DecidableEq

/-- A call: by whom, and how often it tries for a lock. -/
structure SlotCall (r : Region) where
  me : Nat
  tries : Nat
  req : SlotReq r
deriving DecidableEq

/-- The program of a call. `none` is the result of one that still waits for a lock. -/
def slotCode (g : Config) {r : Region} (c : SlotCall r) :
    Prog Cache (Option (Option (Nat × Bytes))) :=
  match c.req with
  | .get key now => r.getRaw g c.me c.tries key now
  | .update i u =>
    (locked c.me c.tries i (writing i (u.stores g))).map fun o => o.map fun _ => none

abbrev SlotEvent (r : Region) := Event (SlotCall r) Empty

abbrev SlotPool (r : Region) := Pool Cache (SlotCall r) (Option (Option (Nat × Bytes)))

def slotExec (g : Config) {r : Region} : SlotPool r → SlotEvent r → SlotPool r :=
  exec (slotCode g) fun e => e.elim

/-- A call is made by the caller it names. -/
def Named {r : Region} : SlotEvent r → Prop
  | .call t c => c.me = t
  | _ => True

instance {r : Region} : DecidablePred (Named (r := r)) := fun
  | .call t c => inferInstanceAs (Decidable (c.me = t))
  | .step _ => .isTrue trivial
  | .env _ => .isTrue trivial

/-- The key and the value were written to the slot, in a call of the events. -/
def Wrote {r : Region} (es : List (SlotEvent r)) (i : Nat) (k v : Bytes) : Prop :=
  ∃ t c item expires now, .call t c ∈ es ∧ c.req = .update i (.write item expires now) ∧
    item.key = k ∧ item.val = v

section
variable {W : Nat → Bytes → Bytes → Prop} {g : Config} {r : Region} {X : Cache → Prop}
  {s : Cache} {c : SlotCall r}

theorem Update.stores_ne_version (u : Update r) : ∀ w ∈ u.stores g, w.1 ≠ .version := by
  cases u with
  | write item expires now =>
    intro w hw
    simp only [Update.stores, fill, copy, mem_append, mem_mapIdx, mem_cons,
      not_mem_nil, or_false] at hw
    rcases hw with (rfl | rfl | rfl | rfl | rfl | rfl) | ⟨j, hj, rfl⟩ | ⟨j, hj, rfl⟩
    all_goals simp
  | bury | touch expires => simp [Update.stores]

theorem Update.legit (u : Update r) {i : Nat}
    (hW : ∀ item expires now, u = .write item expires now → W i item.key item.val) {raw : Raw}
    (h : Legit W r i raw) : Legit W r i (apply raw (u.stores g)) := by
  cases u with
  | write item expires now =>
    rw [Legit, Update.stores, entry_fill r raw _ _ _ item.val_le]
    exact fun _ => hW item expires now rfl
  | bury => exact legit_tombstone raw
  | touch expires =>
    rw [Legit, Update.stores, entry_expiresAt]
    exact h

theorem slotCode_valid (hW : ∀ i item expires now, c.req = .update i (.write item expires now) →
    W i item.key item.val) :
    (slotCode g c).Valid (CacheRely c.me W r X) (CacheStep c.me W r) (fun _ _ => True) s := by
  rw [slotCode]
  split
  · rw [Region.getRaw]
    split
    · trivial
    · have hX : ∀ key h now, Refutes r key h now X fun _ _ => False :=
        fun _ _ _ => ⟨fun _ _ h => h.elim, fun _ _ h => h.elim⟩
      exact (getSlots_valid (hX _ _ _) _ _).post fun _ _ _ => trivial
  · rename_i i u hreq
    refine Valid.map _ ((update_valid c.tries u.stores_ne_version fun raw h => u.legit ?_ h).post
      fun _ _ _ => trivial)
    rintro item expires now rfl
    exact hW i item expires now hreq

end

/-! ## Runs -/

section
variable {W : Nat → Bytes → Bytes → Prop} {g : Config} {r : Region} {P : SlotPool r}
  {es es' : List (SlotEvent r)} {e : SlotEvent r}

/-- What the calls of a run keep: the region is sound, and each call in flight is made by the caller
it names and keeps to its guarantee. -/
structure SlotInv (W : Nat → Bytes → Bytes → Prop) (P : SlotPool r) : Prop where
  versioned : Versioned W r P.shared
  named : ∀ t c p, P.thread t = some (c, p) → c.me = t
  valid : P.Valid (fun c => CacheRely c.me W r fun _ => True) (fun c => CacheStep c.me W r)
    fun _ _ _ => True

theorem slotInv_start : SlotInv W (start Cache.zeroed : SlotPool r) where
  versioned := by
    refine ⟨fun i => rfl, fun i hi => ?_, fun i _ hocc => ?_⟩
    · cases hi
    · cases hocc
  named t c p h := by cases h
  valid := valid_start _

/-- What is written in the events is `W`. -/
def Covers (W : Nat → Bytes → Bytes → Prop) (e : SlotEvent r) : Prop :=
  ∀ t c i item expires now, e = .call t c → c.req = .update i (.write item expires now) →
    W i item.key item.val

/-- **One event**: an action of its caller, or nothing. -/
theorem SlotInv.moves (h : SlotInv W P) (e : SlotEvent r) : (slotExec g P e).shared = P.shared ∨
      ∃ t, e = .step t ∧ CacheStep t W r P.shared (slotExec g P e).shared := by
  rcases h.valid.moves (fun _ _ _ _ => .refl h.versioned trivial) (fun c => .refl _ _ _ _) e
    (slotCode g) (fun e => e.elim) with heq | ⟨t, c, p, hev, hthread, hG⟩ | ⟨x, -⟩
  · exact .inl heq
  · rw [h.named t c p hthread] at hG
    exact .inr ⟨t, hev, hG⟩
  · exact x.elim

/-- What the caller `t` may rely on holds of every event that is not its own. -/
theorem SlotInv.rely {X : Cache → Prop} {t : Nat} (h : SlotInv W P) (hne : e ≠ .step t)
    (hX : X (slotExec g P e).shared) : CacheRely t W r X P.shared (slotExec g P e).shared := by
  rcases h.moves e with heq | ⟨t', hev, hstep⟩
  · rw [heq] at hX ⊢
    exact .refl h.versioned hX
  · refine hstep.rely ?_ h.versioned hX
    rintro rfl
    exact hne hev

/-- **One event** keeps the invariant. -/
theorem SlotInv.exec (h : SlotInv W P) (hnamed : Named e) (hW : Covers W e) :
    SlotInv W (slotExec g P e) where
  versioned := by
    rcases h.moves e with heq | ⟨t, -, hstep⟩
    · rw [heq]
      exact h.versioned
    · exact hstep.sound h.versioned
  named := Pool.Calls.exec h.named fun t c hev => by rwa [hev] at hnamed
  valid := by
    refine h.valid.exec (fun _ _ _ _ => .refl h.versioned trivial) (fun c => .refl _ _ _ _) e
      (fun t c hev => slotCode_valid fun i item expires now hreq =>
        hW t c i item expires now hev hreq)
      (fun _ _ _ _ => .trans) fun t c p hthread hne => ?_
    rw [h.named t c p hthread]
    exact h.rely hne trivial

def regionAfter (g : Config) {r : Region} (es : List (SlotEvent r)) : SlotPool r :=
  runs (slotExec g) (start Cache.zeroed) es

/-- **A run** whose calls are made by the callers they name keeps the invariant. -/
theorem slotInv_runs (hnamed : ∀ e ∈ es, Named e) (hW : ∀ e ∈ es, Covers W e) :
    SlotInv W (regionAfter g es) := by
  have hrun : Along (slotExec g) (fun _ e => Named e ∧ Covers W e)
      (start Cache.zeroed) es := along_of_mem _ fun e he => ⟨hnamed e he, hW e he⟩
  exact hrun.inv (fun P e he h => h.exec he.1 he.2) slotInv_start

theorem covers_wrote (he : e ∈ es) : Covers (Wrote es) e := by
  rintro t c i item expires now rfl hreq
  exact ⟨t, c, item, expires, now, he, hreq, rfl, rfl⟩

/-- What any caller may store. -/
abbrev Any : Nat → Bytes → Bytes → Prop := fun _ _ _ => True

theorem covers_any : Covers Any e := fun _ _ _ _ _ _ _ _ => trivial

theorem regionAfter_append (g : Config) (es es' : List (SlotEvent r)) :
    regionAfter g (es ++ es') = runs (slotExec g) (regionAfter g es) es' :=
  runs_append _ _ _

theorem marks_append (hnamed : ∀ e ∈ es ++ es', Named e) (i : Nat) :
    (regionAfter g es).shared.marks i ≤ (regionAfter g (es ++ es')).shared.marks i ∧
      (regionAfter g (es ++ es')).shared.marks i ≤
        (regionAfter g es).shared.marks i + es'.length := by
  induction es' using reverseRecOn with
  | nil => simp
  | append_singleton es' e ih =>
    rw [← append_assoc] at hnamed ⊢
    have hnamed' : ∀ e ∈ es ++ es', Named e := fun e he => hnamed e (mem_append_left _ he)
    obtain ⟨hle, hlen⟩ := ih hnamed'
    have hrun : regionAfter g (es ++ es' ++ [e]) = slotExec g (regionAfter g (es ++ es')) e :=
      regionAfter_append g (es ++ es') [e]
    rw [hrun, length_append, length_singleton]
    rcases (slotInv_runs hnamed' fun _ _ => covers_any).moves (g := g) e with heq | ⟨t, -, hstep⟩
    · rw [heq]
      omega
    · have hup : (regionAfter g (es ++ es')).shared.marks i ≤
          (slotExec g (regionAfter g (es ++ es')) e).shared.marks i := (hstep.grows i).1
      have hone := hstep.marks_le i
      omega

/-- The slot holds the key, occupied, with the value. -/
def Cache.Holds (r : Region) (s : Cache) (i : Nat) (key v : Bytes) : Prop :=
  ((s.slot i).entry r).state = .occupied ∧ ((s.slot i).entry r).key = key ∧
    ((s.slot i).entry r).val = v

theorem Cache.holds_of_look {s : Cache} {i : Nat} {key v : Bytes} {h now : Nat}
    (hl : (s.slot i).look r key h now = .hit v) : s.Holds r i key v := by
  obtain ⟨hm, -, hv⟩ := Raw.look_eq_hit.1 hl
  obtain ⟨hs, -, -, hk⟩ := Raw.matches_iff.1 hm
  exact ⟨stateOf_eq_occupied.2 hs, hk, hv⟩

theorem eq_of_mod_eq {a b m n : Nat} (hn : n < m + U64) (ha : m ≤ a ∧ a ≤ n) (hb : m ≤ b ∧ b ≤ n)
    (h : a % U64 = b % U64) : a = b := by
  rw [U64] at hn h
  omega

/-! ## One `get` -/

/-- The states of a call of `t` after the events `es`: those after a part of `es'`. -/
def During (g : Config) (es : List (SlotEvent r)) (t : Nat) (c : SlotCall r)
    (es' : List (SlotEvent r)) (s : Cache) : Prop :=
  ∃ es₁, es₁ <+: es' ∧ s = (regionAfter g (es ++ .call t c :: es₁)).shared

section
variable {t : Nat} {c : SlotCall r} {es₁ : List (SlotEvent r)}
  (hnamed : ∀ e ∈ es ++ .call t c :: es', Named e)

include hnamed

theorem named_of_isPrefix (h : es₁ <+: es') : ∀ e ∈ es ++ .call t c :: es₁, Named e := by
  intro e he
  refine hnamed e ?_
  rcases mem_append.1 he with he | he
  · exact mem_append_left _ he
  · exact mem_append_right _ (cons_subset_cons _ h.subset he)

theorem During.marks {s : Cache} (h : During g es t c es' s) (i : Nat) :
    (regionAfter g es).shared.marks i ≤ s.marks i ∧
      s.marks i ≤ (regionAfter g (es ++ .call t c :: es')).shared.marks i := by
  obtain ⟨es₁, h₁, rfl⟩ := h
  refine ⟨(marks_append (named_of_isPrefix hnamed h₁) i).1, ?_⟩
  obtain ⟨es₂, rfl⟩ := h₁
  rw [← cons_append, ← append_assoc] at hnamed ⊢
  exact (marks_append hnamed i).1

theorem refutes_during (key : Bytes) (now : Nat)
    (hfew : ∀ j, (regionAfter g (es ++ .call t c :: es')).shared.marks j <
      (regionAfter g es).shared.marks j + U64) :
    Refutes r key (g.hash key) now (During g es t c es')
      (fun i v => ∀ s, During g es t c es' s → s.marks i % 2 = 0 → ¬ s.Holds r i key v) := by
  refine ⟨fun i v hbad s hs heven hl => hbad s hs heven (Cache.holds_of_look hl), ?_⟩
  intro i v _ s s' hs hs' hmod
  exact eq_of_mod_eq (hfew i) (hs'.marks hnamed i) (hs.marks hnamed i) hmod

theorem During.rely (h : es₁ ++ [e] <+: es') (hne : e ≠ .step t) :
    CacheRely t Any r (During g es t c es') (regionAfter g (es ++ .call t c :: es₁)).shared
      (regionAfter g (es ++ .call t c :: (es₁ ++ [e]))).shared := by
  have hinv : SlotInv Any (regionAfter g (es ++ .call t c :: es₁)) :=
    slotInv_runs (named_of_isPrefix hnamed ((prefix_append es₁ [e]).trans h))
      fun _ _ => covers_any
  have hrun : regionAfter g (es ++ .call t c :: (es₁ ++ [e])) =
      slotExec g (regionAfter g (es ++ .call t c :: es₁)) e := by
    rw [← cons_append, ← append_assoc, regionAfter_append]
    rfl
  rw [hrun]
  exact hinv.rely hne ⟨es₁ ++ [e], h, congrArg shared hrun.symm⟩

end

/-- **The lock-free read is sound**: a `get` that returns a value returns the whole value of a write
of its key, and its slot held that at an instant of the call, if no version comes round during the
call. -/
theorem get_seen (g : Config) {r : Region} (es es' : List (SlotEvent r)) (t : Nat)
    (c : SlotCall r) (key : Bytes) (now i : Nat) (v : Bytes)
    (hnamed : ∀ e ∈ es ++ .call t c :: es', Named e) (hreq : c.req = .get key now)
    (hret : Pool.Returns (slotCode g) (fun e => e.elim) (regionAfter g es) t c es'
      (some (some (i, v)))) (hfew : ∀ j, (regionAfter g (es ++ .call t c :: es')).shared.marks j <
      (regionAfter g es).shared.marks j + U64) :
    ∃ es₁, es₁ <+: es' ∧ (regionAfter g (es ++ .call t c :: es₁)).shared.Holds r i key v ∧
      Wrote (es ++ .call t c :: es₁) i key v := by
  have hme : c.me = t := hnamed (.call t c) (by simp)
  have hcode : (slotCode g c).Valid (CacheRely t Any r (During g es t c es')) (CacheStep t Any r)
      (fun o _ => ∀ i v, o = some (some (i, v)) → ¬ ∀ s, During g es t c es' s →
        s.marks i % 2 = 0 → ¬ s.Holds r i key v) (regionAfter g es).shared := by
    rw [slotCode, hreq, hme]
    dsimp only
    rw [Region.getRaw]
    split
    · intro i v hv
      cases hv
    · exact getSlots_valid (refutes_during hnamed key now hfew) _ _
  have hrun : ∀ es₁, runs (slotExec g) (regionAfter g es) (.call t c :: es₁) =
      regionAfter g (es ++ .call t c :: es₁) := fun es₁ => (regionAfter_append ..).symm
  have hrefl : ∀ es₁, es₁ <+: es' → CacheRely t Any r (During g es t c es')
      (runs (slotExec g) (regionAfter g es) (.call t c :: es₁)).shared
      (runs (slotExec g) (regionAfter g es) (.call t c :: es₁)).shared := by
    intro es₁ h₁
    rw [hrun]
    exact .refl (slotInv_runs (named_of_isPrefix hnamed h₁) fun _ _ => covers_any).versioned
      ⟨es₁, h₁, rfl⟩
  have hmove : ∀ es₁ e, es₁ ++ [e] <+: es' → e ≠ .step t →
      CacheRely t Any r (During g es t c es')
        (runs (slotExec g) (regionAfter g es) (.call t c :: es₁)).shared
        (runs (slotExec g) (regionAfter g es) (.call t c :: (es₁ ++ [e]))).shared := by
    intro es₁ e h₁ hne
    rw [hrun, hrun]
    exact During.rely hnamed h₁ hne
  have hseen := hret.post hcode (fun _ _ _ => .trans) (.refl _ _ _) hrefl hmove
  have hinstant := hseen i v rfl
  push Not at hinstant
  obtain ⟨-, ⟨es₁, h₁, rfl⟩, heven, hholds⟩ := hinstant
  refine ⟨es₁, h₁, hholds, ?_⟩
  have hlegit := (slotInv_runs (g := g) (named_of_isPrefix hnamed h₁)
    fun _ he => covers_wrote he).versioned.legit i heven hholds.1
  rwa [hholds.2.1, hholds.2.2] at hlegit

end

theorem k2_le : (Bytes.ofString "k2").length ≤ KEY_MAX := by decide

/-- An item of the examples: the key has its home in slot 14. -/
def item (v : String) (hv : (Bytes.ofString v).length ≤ VAL_SMALL) : Item .small :=
  { key := .ofString "k2", val := .ofString v, key_le := k2_le, val_le := hv }

def writeA : SlotCall .small :=
  { me := 1, tries := 1, req := .update 14 (.write (item "aaaa" (by decide)) 0 0) }

def touchA : SlotCall .small := { me := 1, tries := 1, req := .update 14 (.touch 0) }

def getK : SlotCall .small := { me := 0, tries := 1, req := .get (.ofString "k2") 0 }

/-- A read that an update runs into: the first attempt is torn, and the second one finds the
value. -/
theorem get_seen_touched : ∃ es₁ : List (SlotEvent .small), es₁ <+: replicate 4 (.step 0) ++
        (.call 1 touchA :: replicate 6 (.step 1)) ++ replicate 21 (.step 0) ∧
      (regionAfter tiny ((.call 1 writeA :: replicate 17 (.step 1)) ++
        .call 0 getK :: es₁)).shared.Holds .small 14 (.ofString "k2") (.ofString "aaaa") ∧
      Wrote ((.call 1 writeA :: replicate 17 (.step 1)) ++ .call 0 getK :: es₁) 14
        (.ofString "k2") (.ofString "aaaa") := by
  have hnamed : ∀ e ∈ (.call 1 writeA :: replicate 17 (.step 1)) ++ .call 0 getK ::
      (replicate 4 (.step 0) ++ (.call 1 touchA :: replicate 6 (.step 1)) ++
        replicate 21 (.step 0)), Named e := by decide
  refine get_seen tiny _ _ 0 getK _ 0 14 _ hnamed rfl
    (returns_of_busy (by decide +kernel) (by simp) (by decide +kernel) (by decide +kernel))
    fun j => Nat.lt_of_le_of_lt (marks_append hnamed j).2 (Nat.add_lt_add_left (by decide) _)

/-! ## A read that sleeps through 2^63 updates -/

/-- What the read was to be, with no bound on what happens during a call. -/
def ReadsSound (g : Config) (r : Region) : Prop :=
  ∀ (es es' : List (SlotEvent r)) (t : Nat) (c : SlotCall r) (key : Bytes) (now i : Nat)
    (v : Bytes), (∀ e ∈ es ++ .call t c :: es', Named e) → c.req = .get key now →
    Pool.Returns (slotCode g) (fun e => e.elim) (regionAfter g es) t c es' (some (some (i, v))) →
    ∃ es₁, es₁ <+: es' ∧ (regionAfter g (es ++ .call t c :: es₁)).shared.Holds r i key v ∧
      Wrote (es ++ .call t c :: es₁) i key v

theorem stores_run (s : Cache) (i : Nat) (ws : List (Field × Nat)) :
    (stores i ws).run s = ({ slot := update s.slot i (apply (s.slot i) ws)
                             lock := s.lock
                             marks := update s.marks i
                               (s.marks i + ws.countP fun w => w.1 = .version) }, ()) := by
  induction ws generalizing s with
  | nil => simp [stores]
  | cons w ws ih =>
    rw [stores, run_atom, ih]
    by_cases hw : w.1 = .version
    · simp [Cache.put, hw, apply, Nat.add_assoc, Nat.add_comm 1]
    · simp [Cache.put, hw, apply]

theorem update_run (g : Config) {r : Region} {s : Cache} {i : Nat} (hi : s.lock i = none)
    (me : Nat) (u : Update r) : (slotCode g { me, tries := 1, req := .update i u }).run s =
      ({ slot := update s.slot i
          (apply (s.slot i) (marked (s.slot i .version) (u.stores g)))
         lock := s.lock
         marks := update s.marks i (s.marks i + 2) }, some none) := by
  have hcount : (marked (s.slot i .version) (u.stores g)).countP (fun w => w.1 = .version) = 2 := by
    have hnone : (u.stores g).countP (fun w => w.1 = .version) = 0 :=
      countP_eq_zero.2 fun w hw => by simpa using u.stores_ne_version w hw
    simp [marked, countP_append, hnone]
  have hlock : update s.lock i none = s.lock := by
    rw [← hi, update_eq_self]
  rw [slotCode]
  dsimp only
  rw [run_map, locked_run Nat.one_pos hi, writing, run_read, stores_run]
  simp only [Cache.setLock, hcount, update_idem, hlock, Option.map_some]

def rawA : Raw :=
  apply (fun _ => 0)
    (marked 0 (fill (.ofString "k2") (.ofString "aaaa") (tiny.hash (.ofString "k2")) 0 0))

/-- The region with `aaaa` in slot 14, touched `n` times. -/
def asleep (n : Nat) : Cache where
  slot := update (fun _ _ => 0) 14 (update rawA .version ((2 + 2 * n) % U64))
  lock := fun _ => none
  marks := update (fun _ => 0) 14 (2 + 2 * n)

theorem writeA_run : (slotCode tiny writeA).run .zeroed = (asleep 0, some none) := by
  have hver : rawA = update rawA .version ((2 + 2 * 0) % U64) :=
    (update_eq_self Field.version rawA).symm
  rw [writeA, update_run tiny rfl, asleep, ← hver]
  rfl

theorem touchA_run (n : Nat) :
    (slotCode tiny touchA).run (asleep n) = (asleep (n + 1), some none) := by
  have hver : u64Add ((2 + 2 * n) % U64 ||| 1) 1 = (2 + 2 * (n + 1)) % U64 := by
    rw [marker_odd (by omega), u64Add, Nat.mod_add_mod]
    congr 1
  have hexp : update rawA .expiresAt 0 = rawA :=
    update_eq_self Field.expiresAt rawA
  have hraw : apply (update rawA .version ((2 + 2 * n) % U64))
      (marked ((2 + 2 * n) % U64) [(.expiresAt, 0)]) =
      update rawA .version ((2 + 2 * (n + 1)) % U64) := by
    rw [apply_marked, hver, apply_cons, apply_nil,
      update_comm (a := Field.version) (by decide), hexp, update_idem]
  rw [touchA, update_run tiny rfl, asleep]
  simp only [update_self, update_idem, Update.stores, hraw]
  rfl

theorem slotExec_whole (g : Config) {r : Region} {P : SlotPool r} {t : Nat} (c : SlotCall r)
    (hidle : P.thread t = none) :
    ∃ m, runs (slotExec g) P (.call t c :: replicate m (.step t)) =
      { shared := ((slotCode g c).run P.shared).1, thread := P.thread,
        done := ⟨t, c, ((slotCode g c).run P.shared).2⟩ :: P.done } :=
  runs_whole (slotCode g) _ c hidle

theorem runs_touches (n : Nat) {P : SlotPool .small} (hP : P.shared = asleep 0)
    (hidle : P.thread 1 = none) : ∃ es, (∀ e ∈ es, e = .call 1 touchA ∨ e = .step 1) ∧
      (runs (slotExec tiny) P es).shared = asleep n ∧
      (runs (slotExec tiny) P es).thread = P.thread := by
  induction n with
  | zero => exact ⟨[], by simp, hP, rfl⟩
  | succ n ih =>
    obtain ⟨es, hes, hs, ht⟩ := ih
    obtain ⟨m, hm⟩ := slotExec_whole tiny (P := runs (slotExec tiny) P es) (t := 1) touchA
      (by rw [ht, hidle])
    refine ⟨es ++ .call 1 touchA :: replicate m (.step 1), fun e he => ?_, ?_, ?_⟩
    · rcases mem_append.1 he with he | he
      · exact hes e he
      · exact (mem_cons.1 he).imp_right eq_of_mem_replicate
    · rw [runs_append, hm, hs, touchA_run]
    · rw [runs_append, hm, ht]

def writeB : SlotCall .small :=
  { me := 1, tries := 1, req := .update 14 (.write (item "bbbb" (by decide)) 0 0) }

/-- The read after ten of its thirteen loads: it has half of `aaaa`. -/
def halfRead : Prog Cache (Option (Option (Nat × Bytes))) :=
  ((slotCode tiny getK).steps 10 (asleep 0)).2

/-- The region when the version has come round. -/
def cameRound : Cache := ((slotCode tiny writeB).run (asleep 9223372036854775807)).1

/-- The read before its last load. -/
def lastRead : Prog Cache (Option (Option (Nat × Bytes))) := (halfRead.steps 2 cameRound).2

variable {P : SlotPool .small}

theorem runs_halfRead (hP : P.shared = asleep 0) (h₀ : P.thread 0 = none) :
    ∃ m, runs (slotExec tiny) P (.call 0 getK :: replicate m (.step 0)) =
      P.settle 0 getK (asleep 0) halfRead := by
  have hten : (slotCode tiny getK).Reaches (fun _ => True) P.shared halfRead (asleep 0) := by
    rw [hP]
    exact reaches_steps 10 _ _
  obtain ⟨m, hm, -⟩ := runs_call (fun e : Empty => e.elim) h₀ trivial hten
  exact ⟨m, hm⟩

theorem runs_cameRound (hP : P.shared = asleep 0) (h₁ : P.thread 1 = none) :
    ∃ es, (∀ e ∈ es, e = .call 1 touchA ∨ e = .call 1 writeB ∨ e = .step 1) ∧
      (runs (slotExec tiny) P es).shared = cameRound ∧
      (runs (slotExec tiny) P es).thread = P.thread := by
  obtain ⟨es, hes, hs, ht⟩ := runs_touches 9223372036854775807 hP h₁
  obtain ⟨m, hm⟩ := slotExec_whole tiny (t := 1) writeB ((congrFun ht 1).trans h₁)
  refine ⟨es ++ .call 1 writeB :: replicate m (.step 1), fun e he => ?_, ?_, ?_⟩
  · rcases mem_append.1 he with he | he
    · exact (hes e he).imp_right .inr
    · exact .inr ((mem_cons.1 he).imp_right eq_of_mem_replicate)
  · rw [runs_append, hm, hs]
    rfl
  · rw [runs_append, hm, ht]

theorem runs_lastRead (hP : P.shared = cameRound) (h₀ : P.thread 0 = some (getK, halfRead)) :
    ∃ m, runs (slotExec tiny) P (replicate m (.step 0)) =
      P.settle 0 getK cameRound lastRead := by
  have htwo : halfRead.Reaches (fun _ => True) P.shared lastRead cameRound := by
    rw [hP]
    exact reaches_steps 2 _ _
  obtain ⟨m, hm, -⟩ := runs_step (slotCode tiny) (fun e : Empty => e.elim) h₀
    (ne_ret_of_result? (by decide +kernel)) htwo
  exact ⟨m, hm⟩

theorem lastRead_next : (lastRead.next cameRound).2 = .ret (some (some (14, .ofString "aabb"))) :=
  eq_ret_of_result? (by decide +kernel)

/-- The four calls of the run, and the actions of the two callers. -/
def Slept (e : SlotEvent .small) : Prop :=
  e ∈ [.call 1 writeA, .call 0 getK, .call 1 touchA, .call 1 writeB, .step 0, .step 1]

theorem Slept.named {e : SlotEvent .small} (h : Slept e) : Named e := by
  simp only [Slept, mem_cons, not_mem_nil, or_false] at h
  rcases h with rfl | rfl | rfl | rfl | rfl | rfl <;> decide

theorem not_wrote_of_slept {es : List (SlotEvent .small)} (h : ∀ e ∈ es, Slept e) :
    ¬ Wrote es 14 (.ofString "k2") (.ofString "aabb") := by
  rintro ⟨t, c, it, expires, now, hcall, hreq, -, hval⟩
  have hc := h _ hcall
  simp only [Slept, mem_cons, Event.call.injEq, reduceCtorEq, not_mem_nil, or_false] at hc
  rcases hc with ⟨-, rfl⟩ | ⟨-, rfl⟩ | ⟨-, rfl⟩ | ⟨-, rfl⟩
  all_goals cases hreq
  all_goals exact absurd hval (by decide)

theorem returns_mixed {P : SlotPool .small} (hP : P.shared = asleep 0) (h₀ : P.thread 0 = none)
    (h₁ : P.thread 1 = none) :
    ∃ es, (∀ e ∈ es, Slept e) ∧ Pool.Returns (slotCode tiny) (fun e => e.elim) P 0 getK es
      (some (some (14, .ofString "aabb"))) := by
  obtain ⟨m₁, hm₁⟩ := runs_halfRead hP h₀
  obtain ⟨es₂, hes₂, hs₂, ht₂⟩ := runs_cameRound (P := P.settle 0 getK (asleep 0) halfRead)
    settle_shared (by rw [settle_thread_ne (by decide), h₁])
  obtain ⟨m₃, hm₃⟩ := runs_lastRead hs₂
    (by rw [ht₂, settle_thread_of_ne_ret (ne_ret_of_result? (by decide +kernel))])
  have hend : runs (slotExec tiny) P (.call 0 getK :: (replicate m₁ (.step 0) ++ es₂ ++
      replicate m₃ (.step 0))) =
        (runs (slotExec tiny) (P.settle 0 getK (asleep 0) halfRead) es₂).settle 0 getK
          cameRound lastRead := by
    rw [← cons_append, ← cons_append, runs_append, runs_append, hm₁, hm₃]
  have hbusy : ∀ a, lastRead ≠ .ret a := ne_ret_of_result? (by decide)
  have hstep : ∀ e ∈ replicate m₁ (.step 0) ++ es₂ ++ replicate m₃ (.step 0),
      e = .step 0 ∨ e = .call 1 touchA ∨ e = .call 1 writeB ∨ e = .step 1 := by
    intro e he
    rcases mem_append.1 he with he | he
    · rcases mem_append.1 he with he | he
      · exact .inl (eq_of_mem_replicate he)
      · exact .inr (hes₂ e he)
    · exact .inl (eq_of_mem_replicate he)
  refine ⟨replicate m₁ (.step 0) ++ es₂ ++ replicate m₃ (.step 0), fun e he => ?_,
    returns_of_busy h₀ (fun c' hc' => ?_) ?_ ?_⟩
  · rcases hstep e he with rfl | rfl | rfl | rfl <;> simp [Slept]
  · simpa using hstep _ hc'
  · change ((runs (slotExec tiny) P _).thread 0).isSome = true
    rw [hend, settle_thread_of_ne_ret hbusy]
    rfl
  · change (runs (slotExec tiny) P _).done = _ :: (runs (slotExec tiny) P _).done
    rw [← cons_append, runs_append, hend, runs_cons, runs_nil, slotExec]
    refine exec_step_done (settle_thread_of_ne_ret hbusy) hbusy ?_
    rw [settle_shared, lastRead_next]

theorem get_mixed : ¬ ReadsSound tiny .small := by
  intro h
  obtain ⟨m, hm⟩ := slotExec_whole tiny (P := start Cache.zeroed) (t := 1) writeA rfl
  change regionAfter tiny _ = _ at hm
  have hs : (regionAfter tiny (.call 1 writeA :: replicate m (.step 1))).shared =
      asleep 0 := by
    rw [hm]
    exact congrArg Prod.fst writeA_run
  obtain ⟨es, hes, hret⟩ := returns_mixed hs (by rw [hm]; rfl) (by rw [hm]; rfl)
  have hslept : ∀ es₁, es₁ <+: es → ∀ e ∈ (.call 1 writeA :: replicate m (.step 1)) ++
      .call 0 getK :: es₁, Slept e := by
    intro es₁ h₁ e he
    simp only [mem_append, mem_cons, mem_replicate] at he
    rcases he with (rfl | ⟨-, rfl⟩) | rfl | he
    iterate 3 simp [Slept]
    exact hes e (h₁.subset he)
  obtain ⟨es₁, h₁, -, hwrote⟩ := h _ es 0 getK _ 0 14 _
    (fun e he => (hslept es prefix_rfl e he).named) rfl hret
  exact not_wrote_of_slept (hslept es₁ h₁) hwrote

end Askr.Kv
