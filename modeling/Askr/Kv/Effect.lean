import Askr.Kv.Table

/-!
# What a call can do to the table

A call names one key, and every action of it, in whatever state other workers left, changes a slot
in one of three ways: it writes an entry of its key into it, or, where the slot holds its key, it
makes it a tombstone or moves its deadline (`Change`). It never empties a slot and never touches the
clock. `code_effect` says so of every public function; it is all that a proof about one key has to
know of the calls on other keys.
-/

namespace Askr.Kv

open Conc Prog

/-! ## Slots -/

section
variable (s : Mem) (r : Region) (i : Nat) (e : Entry)

@[simp] theorem Mem.put_self : (s.put r i e).entry r i = e := by simp [Mem.put]
@[simp] theorem Mem.put_ne {j : Nat} (h : j ≠ i) : (s.put r i e).entry r j = s.entry r j := by
  simp [Mem.put, h]
@[simp] theorem Mem.put_region {r' : Region} (h : r' ≠ r) :
    (s.put r i e).entry r' = s.entry r' := by
  simp [Mem.put, h]

end

theorem Entry.matches_iff {e : Entry} {key : Bytes} {h : Nat} : e.matches key h = true ↔
      e.state = .occupied ∧ e.hash = h ∧ e.key.length ≤ KEY_MAX ∧ e.key = key := by
  simp [Entry.matches, and_assoc]

/-- What a call on `key` can do to one slot. -/
inductive Change (key : Bytes) (h : Nat) (e : Entry) : Entry → Prop where
  | same : Change key h e e
  | written {e' : Entry} : e'.state = .occupied → e'.key = key → e'.hash = h → Change key h e e'
  | buried : e.matches key h → Change key h e { e with state := .tombstone }
  | touched (x : Nat) : e.matches key h → Change key h e { e with expiresAt := x }

/-- What a call on `key` can do in one action: slots change as `Change` says, and nothing else
does. -/
structure CallEffect (key : Bytes) (h : Nat) (s s' : Mem) : Prop where
  clock : s'.nowMs = s.nowMs
  slot : ∀ r i, Change key h (s.entry r i) (s'.entry r i)

/-- An effect of a call that writes no entry of its key. -/
structure CallWanes (key : Bytes) (h : Nat) (s s' : Mem) : Prop where
  effect : CallEffect key h s s'
  had : ∀ r i, (s'.entry r i).matches key h → (s.entry r i).matches key h

section
variable {r : Region} {key : Bytes} {h : Nat}

theorem CallEffect.refl (key : Bytes) (h : Nat) (s : Mem) : CallEffect key h s s :=
  ⟨rfl, fun _ _ => .same⟩

/-- Another slot is as it was. -/
theorem Mem.put_cases (s : Mem) (r : Region) (i : Nat) (e : Entry) (r' : Region) (j : Nat) :
    (r' = r ∧ j = i ∧ (s.put r i e).entry r' j = e) ∨
      (s.put r i e).entry r' j = s.entry r' j := by
  by_cases hr : r' = r
  · subst hr
    by_cases hj : j = i
    · exact .inl ⟨rfl, hj, hj ▸ s.put_self r' i e⟩
    · exact .inr (s.put_ne r' i e hj)
  · exact .inr (congrFun (s.put_region r i e hr) j)

theorem Mem.bury_cases (s : Mem) (r : Region) (i : Nat) (r' : Region) (j : Nat) :
    ((s.bury r i).entry r' j).state = .tombstone ∨ (s.bury r i).entry r' j = s.entry r' j :=
  (s.put_cases r i _ r' j).imp_left fun h => congrArg Entry.state h.2.2

theorem CallEffect.put {s : Mem} {i : Nat} {e : Entry} (he : Change key h (s.entry r i) e) :
    CallEffect key h s (s.put r i e) := by
  refine ⟨rfl, fun r' j => ?_⟩
  obtain ⟨rfl, rfl, heq⟩ | heq := s.put_cases r i e r' j
  · rwa [heq]
  · rw [heq]
    exact .same

theorem CallEffect.write (s : Mem) (i : Nat) (val : Bytes) (expires : Nat) :
    CallEffect key h s (s.write r i key val h expires) := .put (.written rfl rfl rfl)

theorem CallWanes.put {s : Mem} {i : Nat} {e : Entry} (hm : (s.entry r i).matches key h)
    (he : Change key h (s.entry r i) e) : CallWanes key h s (s.put r i e) := by
  refine ⟨.put he, fun r' j hj => ?_⟩
  obtain ⟨rfl, rfl, -⟩ | heq := s.put_cases r i e r' j
  exacts [hm, heq ▸ hj]

theorem CallWanes.bury {s : Mem} {i : Nat} (hm : (s.entry r i).matches key h) :
    CallWanes key h s (s.bury r i) := .put hm (.buried hm)

/-- An action of a call on `key`: it writes one of the values `P` allows, or, in a slot that has the
key, it makes the entry a tombstone or, if `T`, moves its deadline. -/
inductive Act (r : Region) (key : Bytes) (h : Nat) (P : Bytes → Prop) (T : Prop) (s : Mem) :
    Mem → Prop where
  | same : Act r key h P T s s
  | write (i : Nat) (val : Bytes) (expires : Nat) :
    P val → Act r key h P T s (s.write r i key val h expires)
  | bury (i : Nat) : (s.entry r i).matches key h → Act r key h P T s (s.bury r i)
  | mark (i x : Nat) : T → (s.entry r i).matches key h → Act r key h P T s (s.markExpires r i x)

theorem Act.effect {P : Bytes → Prop} {T : Prop} {s s' : Mem} (ha : Act r key h P T s s') :
    CallEffect key h s s' := by
  cases ha with
  | same => exact .refl key h s
  | write i val expires => exact .write s i val expires
  | bury i hm => exact .put (.buried hm)
  | mark i x _ hm => exact .put (.touched x hm)

theorem Act.other {P : Bytes → Prop} {T : Prop} {s s' : Mem} (ha : Act r key h P T s s')
    {r' : Region} (hr : r' ≠ r) : s'.entry r' = s.entry r' := by
  cases ha with
  | same => rfl
  | write | bury | mark => exact s.put_region _ _ _ hr

theorem Act.wanes {P : Bytes → Prop} {T : Prop} {s s' : Mem} (hP : ∀ val, ¬ P val)
    (ha : Act r key h P T s s') : CallWanes key h s s' := by
  cases ha with
  | same => exact ⟨.refl key h s, fun _ _ => id⟩
  | write i val expires hval => exact absurd hval (hP val)
  | bury i hm => exact .bury hm
  | mark i x _ hm => exact .put hm (.touched x hm)

theorem Act.buries {s s' : Mem} (ha : Act r key h (fun _ => False) False s s') :
    s' = s ∨ ∃ j, s' = s.bury r j := by
  cases ha with
  | same => exact .inl rfl
  | write _ _ _ hval => exact hval.elim
  | bury i hm => exact .inr ⟨i, rfl⟩
  | mark _ _ hT => exact hT.elim

/-! ## The loops -/

variable {P : Bytes → Prop} {T : Prop}

theorem getScan_act (now : Nat) (w : List Nat) :
    (getScan r key h now w).Guar (Act r key h P T) := by
  induction w with
  | nil => trivial
  | cons i w ih =>
    refine guar_read (fun _ => .same) fun s => ?_
    split
    · split
      · refine guar_atom fun s => ⟨?_, trivial⟩
        simp only
        split
        · rename_i hm
          exact .bury i (Bool.and_eq_true _ _ ▸ hm).1
        · exact .same
      · trivial
    · split
      exacts [trivial, ih]

theorem deleteScan_act (w : List Nat) (found : Bool) :
    (deleteScan r key h w found).Guar (Act r key h P T) := by
  induction w generalizing found with
  | nil => trivial
  | cons i w ih =>
    refine guar_atom fun s => ?_
    split
    · exact ⟨.same, trivial⟩
    · split
      · rename_i hm
        exact ⟨.bury i hm, ih true⟩
      · exact ⟨.same, ih found⟩

theorem tombstoneOthers_act (keep : Nat) (w : List Nat) :
    (tombstoneOthers r key h keep w).Guar (Act r key h P T) := by
  induction w with
  | nil => trivial
  | cons i w ih =>
    rw [tombstoneOthers]
    split
    · exact ih
    · refine guar_atom fun s => ?_
      split
      · exact ⟨.same, trivial⟩
      · split
        · rename_i hm
          exact ⟨.bury i hm, ih⟩
        · exact ⟨.same, ih⟩

theorem tombstoneOthers_wanes (keep : Nat) (w : List Nat) :
    (tombstoneOthers r key h keep w).Guar (CallWanes key h) :=
  (tombstoneOthers_act (T := False) keep w).mono fun _ _ => Act.wanes fun _ => id

theorem setWrite_act (g : Config) {val : Bytes} (hP : P val) (expires target : Nat) :
    (setWrite g r key val h expires target).Guar (Act r key h P T) :=
  guar_atom fun _ => ⟨.write target val expires hP, tombstoneOthers_act target _⟩

theorem setScan_act (g : Config) {val : Bytes} (hP : P val) (expires now : Nat) (w : List Nat)
    (a : SetAcc) : (setScan g r key val h expires now w a).Guar (Act r key h P T) := by
  induction w generalizing a with
  | nil => exact setWrite_act g hP expires _
  | cons i w ih =>
    refine guar_atom fun s => ?_
    split
    · exact ⟨.write i val expires hP, trivial⟩
    · refine ⟨.same, ?_⟩
      simp only
      split
      exacts [setWrite_act g hP expires _, ih _]

theorem claimScan_act {α : Type} {hit : Mem → Nat → Mem × α} {commit : Option Nat → Prog Mem α}
    (hhit : ∀ s i, Act r key h P T s (hit s i).1)
    (hcommit : ∀ reuse, (commit reuse).Guar (Act r key h P T)) (w : List Nat) (reuse : Option Nat) :
    (claimScan r key h hit commit w reuse).Guar (Act r key h P T) := by
  induction w generalizing reuse with
  | nil => exact hcommit reuse
  | cons i w ih =>
    refine guar_atom fun s => ?_
    split
    · exact ⟨hhit s i, trivial⟩
    · refine ⟨.same, ?_⟩
      simp only
      split
      exacts [hcommit _, ih _]

theorem addHit_act {val : Bytes} (hP : P val) (expires now : Nat) (s : Mem) (i : Nat) :
    Act r key h P T s (addHit r key val h expires now s i).1 := by
  rw [addHit]
  split
  exacts [.write i val expires hP, .same]

theorem addCommit_act {val : Bytes} (hP : P val) (expires now : Nat) (reuse : Option Nat) :
    (addCommit r key val h expires now reuse).Guar (Act r key h P T) := by
  cases reuse with
  | none => trivial
  | some i =>
    refine guar_atom fun s => ?_
    split
    · exact ⟨.same, trivial⟩
    · split
      exacts [⟨.write i val expires hP, trivial⟩, ⟨.same, trivial⟩]

theorem incrementHit_act (hP : ∀ val, P val) (delta : Int) (expires now : Nat) (s : Mem) (i : Nat) :
    Act r key h P T s (incrementHit r key h delta expires now s i).1 := by
  rw [incrementHit]
  split
  exacts [.write i _ expires (hP _), .write i _ _ (hP _)]

theorem incrementCommit_act (hP : ∀ val, P val) (delta : Int) (expires now : Nat)
    (reuse : Option Nat) :
    (incrementCommit r key h delta expires now reuse).Guar (Act r key h P T) := by
  cases reuse with
  | none => trivial
  | some i =>
    refine guar_atom fun s => ?_
    split
    exacts [⟨.write i _ _ (hP _), trivial⟩, ⟨.write i _ expires (hP _), trivial⟩]

theorem touchScan_act (hT : T) (expires now : Nat) (w : List Nat) :
    (touchScan r key h expires now w).Guar (Act r key h P T) := by
  induction w with
  | nil => trivial
  | cons i w ih =>
    refine guar_atom fun s => ?_
    split
    · exact ⟨.same, trivial⟩
    · split
      · rename_i hm
        split
        exacts [⟨.bury i hm, trivial⟩, ⟨.mark i expires hT hm, trivial⟩]
      · exact ⟨.same, ih⟩

/-! ## The functions -/

variable (g : Config)

theorem Region.get_act : (r.get g key h).Guar (Act r key h P T) := by
  rw [Region.get]
  split
  · trivial
  · exact guar_read (fun _ => .same) fun s => getScan_act _ _

theorem Region.delete_act : (r.delete g key h).Guar (Act r key h P T) := by
  rw [Region.delete]
  split
  · trivial
  · exact deleteScan_act _ _

theorem Region.get_wanes : (r.get g key h).Guar (CallWanes key h) :=
  (Region.get_act (T := False) g).mono fun _ _ => Act.wanes fun _ => id

theorem Region.delete_wanes : (r.delete g key h).Guar (CallWanes key h) :=
  (Region.delete_act (T := False) g).mono fun _ _ => Act.wanes fun _ => id

theorem Region.set_act {val : Bytes} (hP : P val) (ttl : Nat) :
    (r.set g key val h ttl).Guar (Act r key h P T) := by
  rw [Region.set]
  split
  · trivial
  · split
    · trivial
    · exact guar_read (fun _ => .same) fun s => setScan_act g hP _ _ _ _

theorem Region.add_act {val : Bytes} (hP : P val) (ttl : Nat) :
    (r.add g key val h ttl).Guar (Act r key h P T) := by
  rw [Region.add]
  split
  · trivial
  · split
    · trivial
    · exact guar_read (fun _ => .same) fun s =>
        claimScan_act (fun s i => addHit_act hP _ _ s i) (addCommit_act hP _ _) _ _

theorem Region.increment_act (hP : ∀ val, P val) (delta : Int) (ttl : Nat) :
    (r.increment g key h delta ttl).Guar (Act r key h P T) := by
  rw [Region.increment]
  split
  · trivial
  · exact guar_read (fun _ => .same) fun s =>
      claimScan_act (fun s i => incrementHit_act hP delta _ _ s i)
        (incrementCommit_act hP delta _ _) _ _

theorem Region.touch_act (hT : T) (ttl : Nat) : (r.touch g key h ttl).Guar (Act r key h P T) := by
  rw [Region.touch]
  split
  · trivial
  · exact guar_read (fun _ => .same) fun s => touchScan_act hT _ _ _

end

/-- The requests that write an entry: `set`, `add` and `increment`. -/
def Req.writes : Req → Bool
  | .set _ _ | .add _ _ | .increment _ _ => true
  | .get | .delete | .touch _ => false

/-- Every action of a call works on one region: what a call's program on each region guarantees,
the call guarantees. Values in the large region are longer than `VAL_SMALL`. -/
theorem code_acts (g : Config) {G : Mem → Mem → Prop} (c : Call)
    (hsmall : ∀ s s', Act .small c.key (g.hash c.key) (fun _ => c.req.writes) True s s' → G s s')
    (hlarge : ∀ s s', Act .large c.key (g.hash c.key)
      (fun val => c.req.writes ∧ VAL_SMALL < val.length) True s s' → G s s') :
    (code g c).Guar G := by
  obtain ⟨app, name, req⟩ := c
  cases req with
  | get =>
    refine Guar.map _ ?_
    rw [get]
    split
    · trivial
    · refine ((Region.get_act g).mono hsmall).bind fun v => ?_
      cases v
      exacts [(Region.get_act g).mono hlarge, trivial]
  | delete =>
    exact Guar.map _ (((Region.delete_act g).mono hsmall).bind fun _ =>
      Guar.map _ ((Region.delete_act g).mono hlarge))
  | touch ttl =>
    refine Guar.map _ ?_
    rw [touch]
    split
    · trivial
    · refine ((Region.touch_act g trivial ttl).mono hsmall).bind fun v => ?_
      split
      exacts [trivial, (Region.touch_act g trivial ttl).mono hlarge]
  | set val ttl =>
    refine Guar.map _ ?_
    rw [set]
    split
    · trivial
    split
    · exact ((Region.delete_act g).mono hlarge).bind fun _ =>
        (Region.set_act g (by rfl) ttl).mono hsmall
    rename_i hval
    split
    · exact ((Region.delete_act g).mono hsmall).bind fun _ =>
        (Region.set_act g ⟨rfl, Nat.lt_of_not_le hval⟩ ttl).mono hlarge
    · trivial
  | add val ttl =>
    refine Guar.map _ ?_
    rw [add]
    split
    · trivial
    · refine ((Region.get_act g).mono hlarge).bind fun v => ?_
      split
      exacts [trivial, (Region.add_act g (by rfl) ttl).mono hsmall]
  | increment delta ttl =>
    refine Guar.map _ ?_
    rw [increment]
    split
    exacts [trivial, (Region.increment_act g (fun _ => rfl) delta ttl).mono hsmall]

theorem code_wanes (g : Config) {c : Call} (hc : c.req.writes = false) :
    (code g c).Guar (CallWanes c.key (g.hash c.key)) := by
  refine code_acts g c (fun s s' ha => ha.wanes fun _ hw => ?_)
    fun s s' ha => ha.wanes fun _ hw => ?_
  exacts [absurd hw (by simp [hc]), absurd hw.1 (by simp [hc])]

/-- **What a call can do.** Every action of a call changes slots as `Change` says for the key of the
call, and nothing else. -/
theorem code_effect (g : Config) (c : Call) : (code g c).Guar (CallEffect c.key (g.hash c.key)) :=
  code_acts g c (fun _ _ ha => ha.effect) fun _ _ ha => ha.effect

/-! ## Seen from another key -/

section
variable {key k : Bytes} {h hk : Nat} {e e' : Entry}

theorem Change.ne_empty (hc : Change key h e e') (he : e.state ≠ .empty) : e'.state ≠ .empty := by
  cases hc with
  | same => exact he
  | written hs => rw [hs]; decide
  | buried hm => simp
  | touched x hm => exact he

theorem Change.matches_of_ne (hc : Change key h e e') (hk' : key ≠ k)
    (hm : e'.matches k hk = true) : e.matches k hk = true := by
  cases hc with
  | same => exact hm
  | written hs hkey hh => exact absurd (hkey.symm.trans (Entry.matches_iff.1 hm).2.2.2) hk'
  | buried hm' => simp [Entry.matches] at hm
  | touched x hm' => simpa [Entry.matches] using hm

theorem Change.of_matches (hc : Change key h e e') (hk' : key ≠ k) (hm : e.matches k hk = true) :
    e' = e ∨ (e'.state = .occupied ∧ e'.matches k hk = false) := by
  have hkey : e.key = k := (Entry.matches_iff.1 hm).2.2.2
  cases hc with
  | same => exact .inl rfl
  | written hs hkey' hh =>
    refine .inr ⟨hs, Bool.eq_false_iff.2 fun hm' => hk' ?_⟩
    exact hkey'.symm.trans (Entry.matches_iff.1 hm').2.2.2
  | buried hm' => exact absurd ((Entry.matches_iff.1 hm').2.2.2.symm.trans hkey) hk'
  | touched x hm' => exact absurd ((Entry.matches_iff.1 hm').2.2.2.symm.trans hkey) hk'

end

end Askr.Kv
