import Askr.Conc.Rely
import Askr.Kv.Region

/-!
# Deleted means deleted

Writes that race can leave several entries of one key in its window, and `delete` stops at the first
empty slot. It misses none of them: no slot is ever emptied again (`Fills`), and every write puts
its key into a slot that its walk gets to (`Grows`), so an entry of the key has no empty slot in
front of it (`InPlace`). Once no write of the key is under way its entries only go away (`Fades`),
and a `delete` that starts then passes all of them. These relations are what the calls guarantee and
rely on: `code_grows` for every call, `delete_gone` for the `delete`.
-/

namespace Askr.Kv

open Conc Prog Probe List Run Pool

/-- No slot is emptied. -/
def Fills (s s' : Mem) : Prop :=
  ∀ r i, (s.entry r i).state ≠ .empty → (s'.entry r i).state ≠ .empty

section
variable (g : Config) (k : Bytes)

/-- Every entry of the key is where its walk gets to. -/
def InPlace (s : Mem) : Prop := ∀ r i, HasAt g r k s i → g.slots r ≠ 0 ∧ Place g r k s i

/-- Entries of the key are added only where its walk gets to. -/
structure Grows (s s' : Mem) : Prop where
  fills : Fills s s'
  new : ∀ r i, HasAt g r k s' i → HasAt g r k s i ∨ g.slots r ≠ 0 ∧ Place g r k s i

/-- No entry of the key is added. -/
structure Fades (s s' : Mem) : Prop where
  fills : Fills s s'
  had : ∀ r i, HasAt g r k s' i → HasAt g r k s i

/-- No slot of the region is emptied, and no entry of the key is added there. -/
structure FadesIn (r : Region) (s s' : Mem) : Prop where
  fills : ∀ i, (s.entry r i).state ≠ .empty → (s'.entry r i).state ≠ .empty
  had : ∀ i, HasAt g r k s' i → HasAt g r k s i

def Gone (s : Mem) : Prop := ∀ r i, ¬ HasAt g r k s i

end

variable {g : Config} {k : Bytes} {r : Region} {s s' s'' : Mem} {i : Nat}

theorem Fills.refl (s : Mem) : Fills s s := fun _ _ => id

theorem Fills.trans (h : Fills s s') (h' : Fills s' s'') : Fills s s'' :=
  fun r i hi => h' r i (h r i hi)

theorem Place.fills (h : Place g r k s i) (hf : Fills s s') : Place g r k s' i :=
  ⟨h.1, fun j hj => hf r j (h.2 j hj)⟩

theorem Grows.refl (g : Config) (k : Bytes) (s : Mem) : Grows g k s s :=
  ⟨.refl s, fun _ _ => .inl⟩

theorem Fades.refl (g : Config) (k : Bytes) (s : Mem) : Fades g k s s := ⟨.refl s, fun _ _ => id⟩

theorem Fades.trans (h : Fades g k s s') (h' : Fades g k s' s'') : Fades g k s s'' :=
  ⟨h.fills.trans h'.fills, fun r i hi => h.had r i (h'.had r i hi)⟩

theorem Fades.into (h : Fades g k s s') (r : Region) : FadesIn g k r s s' := ⟨h.fills r, h.had r⟩

theorem Fades.grows (h : Fades g k s s') : Grows g k s s' :=
  ⟨h.fills, fun r i hi => .inl (h.had r i hi)⟩

theorem InPlace.grows (h : InPlace g k s) (hg : Grows g k s s') : InPlace g k s' := by
  intro r i hi
  obtain ⟨hslots, hplace⟩ : g.slots r ≠ 0 ∧ Place g r k s i := (hg.new r i hi).elim (h r i) id
  exact ⟨hslots, hplace.fills hg.fills⟩

theorem Gone.fades (h : Gone g k s) (hf : Fades g k s s') : Gone g k s' :=
  fun r i hi => h r i (hf.had r i hi)

theorem CallEffect.fills {key : Bytes} {h : Nat} (he : CallEffect key h s s') : Fills s s' :=
  fun r i hi => (he.slot r i).ne_empty hi

theorem CallEffect.fades {key : Bytes} {h : Nat} (he : CallEffect key h s s') (hne : key ≠ k) :
    Fades g k s s' := ⟨he.fills, fun r i hi => (he.slot r i).matches_of_ne hne hi⟩

theorem CallWanes.fades (hw : CallWanes k (g.hash k) s s') : Fades g k s s' :=
  ⟨hw.effect.fills, hw.had⟩

theorem fades_tick (g : Config) (k : Bytes) (d : Nat) (s : Mem) : Fades g k s (tick d s) :=
  ⟨fun _ _ => id, fun _ _ => id⟩

theorem code_fades {c : Call} (hc : c.key = k → c.req.writes = false) :
    (code g c).Guar (Fades g k) := by
  by_cases hk : c.key = k
  · subst hk
    exact (code_wanes g (hc rfl)).mono fun _ _ hw => hw.fades
  · exact (code_effect g c).mono fun _ _ he => he.fades hk

/-! ## Every write is in place -/

theorem Grows.write (h : HasAt g r k s i ∨ g.slots r ≠ 0 ∧ Place g r k s i) (val : Bytes)
    (expires : Nat) : Grows g k s (s.write r i k val (g.hash k) expires) := by
  refine ⟨(CallEffect.write s i val expires).fills, fun r' j hj => ?_⟩
  by_cases hji : r' = r ∧ j = i
  · obtain ⟨rfl, rfl⟩ := hji
    exact h
  · refine .inl ?_
    rwa [HasAt, Mem.write, ((s.put_cases r i _ r' j).resolve_left fun h => hji ⟨h.1, h.2.1⟩)] at hj

theorem SetOk.fills {done : List Nat} {a : SetAcc} (h : SetOk g r k s done a) (hf : Fills s s') :
    SetOk g r k s' done a :=
  ⟨fun j hj => hf r j (h.done j hj), fun x hx => (h.reuse x hx).fills hf, h.victim, h.expired⟩

theorem claimScan_grows {α : Type} {hit : Mem → Nat → Mem × α} {commit : Option Nat → Prog Mem α}
    (hhit : ∀ s i, HasAt g r k s i → Grows g k s (hit s i).1)
    (hcommit : ∀ s o, (∀ x, o = some x → Place g r k s x) →
      (commit o).Valid Fills (Grows g k) (fun _ _ => True) s)
    {done rest : List Nat} {o : Option Nat} (hpath : g.window r (g.hash k) = done ++ rest)
    (hdone : ∀ j ∈ done, (s.entry r j).state ≠ .empty) (ho : ∀ x, o = some x → Place g r k s x) :
    (claimScan r k (g.hash k) hit commit rest o).Valid Fills (Grows g k) (fun _ _ => True) s := by
  induction rest generalizing done o s with
  | nil => exact hcommit s o ho
  | cons j rest ih =>
    refine valid_atom fun s' hs' => ?_
    have hdone' : ∀ x ∈ done, (s'.entry r x).state ≠ .empty := fun x hx => hs' r x (hdone x hx)
    have ho' : ∀ x, (if (s'.entry r j).state = .occupied then o else o.or (some j)) = some x →
        Place g r k s' x := by
      intro x hx
      have hx' : o = some x ∨ x = j := by
        split at hx
        · exact .inl hx
        · cases o with
          | none => exact .inr (Option.some.inj hx).symm
          | some y => exact .inl hx
      rcases hx' with hx' | rfl
      · exact (ho x hx').fills hs'
      · refine ⟨by simp [hpath], fun y hy => hdone' y ?_⟩
        rw [hpath] at hy
        exact passed_subset hy
    split
    · rename_i hm
      exact ⟨hhit s' j hm, trivial⟩
    · refine ⟨.refl g k s', ?_⟩
      simp only
      split
      · exact hcommit s' _ ho'
      · rename_i hne
        have hpath' : g.window r (g.hash k) = (done ++ [j]) ++ rest := by simp [hpath]
        refine ih hpath' (fun x hx => ?_) ho'
        rcases mem_append.1 hx with hx | hx
        · exact hdone' x hx
        · rw [mem_singleton.1 hx]
          exact hne

section
variable (hslots : g.slots r ≠ 0) {val : Bytes} {expires now : Nat}
include hslots

theorem setWrite_grows {t : Nat} (ht : Place g r k s t) :
    (setWrite g r k val (g.hash k) expires t).Valid Fills (Grows g k) (fun _ _ => True) s := by
  refine valid_atom fun s' hs' =>
    ⟨.write (.inr ⟨hslots, ht.fills hs'⟩) val expires, Guar.valid ?_ fun _ _ => trivial⟩
  exact (tombstoneOthers_wanes t _).mono fun _ _ hw => hw.fades.grows

theorem setScan_grows {done rest : List Nat} {a : SetAcc}
    (hpath : g.window r (g.hash k) = done ++ rest) (ha : SetOk g r k s done a) :
    (setScan g r k val (g.hash k) expires now rest a).Valid Fills (Grows g k) (fun _ _ => True)
      s := by
  induction rest generalizing done a s with
  | nil =>
    rw [append_nil] at hpath
    exact setWrite_grows hslots (ha.target_all hpath)
  | cons j rest ih =>
    refine valid_atom fun s' hs' => ?_
    have ha' := ha.fills hs'
    split
    · rename_i hm
      exact ⟨.write (.inl hm) val expires, trivial⟩
    · refine ⟨.refl g k s', ?_⟩
      simp only
      split
      · rename_i hempty
        exact setWrite_grows hslots (ha'.target_end hpath now hempty)
      · rename_i hne
        have hpath' : g.window r (g.hash k) = (done ++ [j]) ++ rest := by simp [hpath]
        exact ih hpath' (ha'.on hpath now hne)

omit hslots in
theorem addHit_grows (h : HasAt g r k s i) :
    Grows g k s (addHit r k val (g.hash k) expires now s i).1 := by
  rw [addHit]
  split
  exacts [.write (.inl h) val expires, .refl g k s]

theorem addCommit_grows {o : Option Nat} (ho : ∀ x, o = some x → Place g r k s x) :
    (addCommit r k val (g.hash k) expires now o).Valid Fills (Grows g k) (fun _ _ => True) s := by
  cases o with
  | none => trivial
  | some i =>
    refine valid_atom fun s' hs' => ?_
    split
    · exact ⟨.refl g k s', trivial⟩
    · split
      exacts [⟨.write (.inr ⟨hslots, (ho i rfl).fills hs'⟩) val expires, trivial⟩,
        ⟨.refl g k s', trivial⟩]

variable {delta : Int}

omit hslots in
theorem incrementHit_grows (h : HasAt g r k s i) :
    Grows g k s (incrementHit r k (g.hash k) delta expires now s i).1 := by
  rw [incrementHit]
  split
  exacts [.write (.inl h) _ expires, .write (.inl h) _ _]

theorem incrementCommit_grows {o : Option Nat} (ho : ∀ x, o = some x → Place g r k s x) :
    (incrementCommit r k (g.hash k) delta expires now o).Valid Fills (Grows g k) (fun _ _ => True)
      s := by
  cases o with
  | none => trivial
  | some i =>
    refine valid_atom fun s' hs' => ?_
    have hplace : g.slots r ≠ 0 ∧ Place g r k s' i := ⟨hslots, (ho i rfl).fills hs'⟩
    split
    exacts [⟨.write (.inr hplace) _ _, trivial⟩, ⟨.write (.inr hplace) _ expires, trivial⟩]

end

theorem Region.set_grows (val : Bytes) (ttl : Nat) :
    (r.set g k val (g.hash k) ttl).Valid Fills (Grows g k) (fun _ _ => True) s := by
  rw [Region.set]
  split
  · trivial
  · rename_i hslots
    split
    · trivial
    · exact valid_read (.refl g k) fun s' _ => setScan_grows hslots (nil_append _).symm
        (setOk_start g r k s')

theorem Region.add_grows (val : Bytes) (ttl : Nat) :
    (r.add g k val (g.hash k) ttl).Valid Fills (Grows g k) (fun _ _ => True) s := by
  rw [Region.add]
  split
  · trivial
  · rename_i hslots
    split
    · trivial
    · exact valid_read (.refl g k) fun s' _ => claimScan_grows (fun _ _ => addHit_grows)
        (fun _ _ => addCommit_grows hslots) (nil_append _).symm (by simp) (by simp)

theorem Region.increment_grows (delta : Int) (ttl : Nat) :
    (r.increment g k (g.hash k) delta ttl).Valid Fills (Grows g k) (fun _ _ => True) s := by
  rw [Region.increment]
  split
  · trivial
  · rename_i hslots
    exact valid_read (.refl g k) fun s' _ => claimScan_grows
      (fun _ _ => incrementHit_grows) (fun _ _ => incrementCommit_grows hslots)
      (nil_append _).symm (by simp) (by simp)

/-- **Every call writes in place**, as long as no slot is emptied. -/
theorem code_grows (g : Config) (k : Bytes) (c : Call) (s : Mem) :
    (code g c).Valid Fills (Grows g k) (fun _ _ => True) s := by
  by_cases hc : c.key = k → c.req.writes = false
  · exact Guar.valid ((code_fades hc).mono fun _ _ hf => hf.grows) fun _ _ => trivial
  obtain ⟨app, name, req⟩ := c
  obtain ⟨rfl, hw⟩ := Classical.not_imp.1 hc
  have hdelete : ∀ (r : Region) (k : Bytes), (r.delete g k (g.hash k)).Guar (Grows g k) :=
    fun r k => (Region.delete_wanes g).mono fun _ _ hw => hw.fades.grows
  have hget : ∀ (r : Region) (k : Bytes), (r.get g k (g.hash k)).Guar (Grows g k) :=
    fun r k => (Region.get_wanes g).mono fun _ _ hw => hw.fades.grows
  cases req with
  | get => exact absurd rfl hw
  | delete => exact absurd rfl hw
  | touch ttl => exact absurd rfl hw
  | set val ttl =>
    refine Valid.map _ ?_
    rw [set]
    split
    · trivial
    split
    · exact Valid.bind ((hdelete _ _).valid fun _ s => Region.set_grows val ttl)
    split
    · exact Valid.bind ((hdelete _ _).valid fun _ s => Region.set_grows val ttl)
    · trivial
  | add val ttl =>
    refine Valid.map _ ?_
    rw [add]
    split
    · trivial
    · refine Valid.bind ((hget _ _).valid fun v s => ?_)
      split
      exacts [trivial, Region.add_grows val ttl]
  | increment delta ttl =>
    refine Valid.map _ ?_
    rw [increment]
    split
    exacts [trivial, Region.increment_grows delta ttl]

/-! ## A `delete` passes every entry -/

theorem Place.mem_done (h : Place g r k s i) {done rest : List Nat} {j : Nat}
    (hpath : g.window r (g.hash k) = done ++ j :: rest) (hj : (s.entry r j).state = .empty)
    (hi : HasAt g r k s i) : i ∈ done := by
  rcases mem_passed_or (i := j) (by simp [hpath]) h.1 with rfl | hlt | hgt
  · rw [hi.occupied] at hj
    cases hj
  · exact absurd hj (h.2 j hlt)
  · rw [hpath] at hgt
    exact passed_subset hgt

theorem deleteScan_gone {done rest : List Nat} {found : Bool}
    (h : ∀ i, HasAt g r k s i → Place g r k s i)
    (hpath : g.window r (g.hash k) = done ++ rest) (hdone : ∀ j ∈ done, ¬ HasAt g r k s j) :
    (deleteScan r k (g.hash k) rest found).Valid (FadesIn g k r) (Fades g k)
      (fun _ s => ∀ i, ¬ HasAt g r k s i) s := by
  induction rest generalizing done found s with
  | nil =>
    rw [append_nil] at hpath
    exact fun i hi => hdone i (hpath ▸ (h i hi).1) hi
  | cons j rest ih =>
    refine valid_atom fun s' hs' => ?_
    have hplace : ∀ {s'}, FadesIn g k r s s' → ∀ i, HasAt g r k s' i → Place g r k s' i :=
      fun hf i hi => ⟨(h i (hf.had i hi)).1, fun x hx => hf.fills x ((h i (hf.had i hi)).2 x hx)⟩
    have hdone' : ∀ j ∈ done, ¬ HasAt g r k s' j := fun x hx hi => hdone x hx (hs'.had x hi)
    have hnext : ∀ s'' found, Fades g k s' s'' → ¬ HasAt g r k s'' j →
        (deleteScan r k (g.hash k) rest found).Valid (FadesIn g k r) (Fades g k)
          (fun _ s => ∀ i, ¬ HasAt g r k s i) s'' := by
      intro s'' found hf hj
      have hpath' : g.window r (g.hash k) = (done ++ [j]) ++ rest := by simp [hpath]
      have hf' : FadesIn g k r s s'' :=
        ⟨fun i hi => hf.fills r i (hs'.fills i hi), fun i hi => hs'.had i (hf.had r i hi)⟩
      refine ih (hplace hf') hpath' fun x hx hi => ?_
      rcases mem_append.1 hx with hx | hx
      · exact hdone' x hx (hf.had r x hi)
      · cases mem_singleton.1 hx
        exact hj hi
    split
    · rename_i hempty
      exact ⟨.refl g k s', fun i hi => hdone' i ((hplace hs' i hi).mem_done hpath hempty hi) hi⟩
    · split
      · rename_i hm
        have hf : Fades g k s' (s'.bury r j) := (CallWanes.bury hm).fades
        exact ⟨hf, hnext _ true hf (by simp [HasAt, Mem.bury, Entry.matches])⟩
      · rename_i hm
        exact ⟨.refl g k s', hnext _ found (.refl g k s') hm⟩

theorem Region.clear_gone (h : ∀ i, HasAt g r k s i → g.slots r ≠ 0 ∧ Place g r k s i) :
    (r.delete g k (g.hash k)).Valid (FadesIn g k r) (Fades g k)
      (fun _ s => ∀ i, ¬ HasAt g r k s i) s := by
  rw [Region.delete]
  split
  · rename_i hslots
    exact fun i hi => (h i hi).1 hslots
  · exact deleteScan_gone (fun i hi => (h i hi).2) (nil_append _).symm (by simp)

theorem Region.delete_gone (h : InPlace g k s) :
    (r.delete g k (g.hash k)).Valid (Fades g k) (Fades g k) (fun _ s => ∀ i, ¬ HasAt g r k s i) s :=
  (Region.clear_gone (h r)).weaken (fun _ _ hf => hf.into r) (fun _ _ hf => hf) fun _ _ hf => hf

/-- **A `delete` leaves no entry of its key**, where every entry is in place and none is added. -/
theorem delete_gone (h : InPlace g k s) :
    (delete g k).Valid (Fades g k) (Fades g k) (fun _ s => Gone g k s) s := by
  have hframe : ∀ s s', Fades g k s s' → InPlace g k s → InPlace g k s' :=
    fun _ _ hf hin => hin.grows hf.grows
  have hsmall : ∀ s s', Fades g k s s' → (∀ i, ¬ HasAt g .small k s i) →
      ∀ i, ¬ HasAt g .small k s' i := fun _ _ hf hno i hi => hno i (hf.had _ i hi)
  refine Valid.bind (((Region.delete_gone h).frame hframe hframe h).weaken (fun _ _ => id)
    (fun _ _ => id) fun a s hs => Valid.map _ ?_)
  refine ((Region.delete_gone hs.2).frame hsmall hsmall hs.1).weaken (fun _ _ => id)
    (fun _ _ => id) fun b s hs r i hi => ?_
  cases r with
  | small => exact hs.2 i hi
  | large => exact hs.1 i hi

/-! ## A `get` needs an entry -/

theorem getScan_has (now : Nat) (w : List Nat) :
    (getScan r k (g.hash k) now w).Valid (fun _ _ => True) (fun _ _ => True)
      (fun v s => v.isSome → ∃ i, HasAt g r k s i) s := by
  induction w generalizing s with
  | nil => exact fun h => (by cases h)
  | cons i w ih =>
    refine valid_read (fun _ => trivial) fun s' _ => ?_
    split
    · rename_i hm
      split
      · exact valid_atom fun s'' _ => ⟨trivial, fun h => (by cases h)⟩
      · exact fun _ => ⟨i, hm⟩
    · split
      · exact fun h => (by cases h)
      · exact ih

theorem Region.get_has : (r.get g k (g.hash k)).Valid (fun _ _ => True) (fun _ _ => True)
      (fun v s => v.isSome → ∃ i, HasAt g r k s i) s := by
  rw [Region.get]
  split
  · exact fun h => (by cases h)
  · exact valid_read (fun _ => trivial) fun _ _ => getScan_has _ _

theorem code_get_none (g : Config) (c : Call) (s : Mem) :
    (code g c).Valid (fun _ _ => True) (fun _ _ => True)
      (fun r s => c.req = .get → Gone g c.key s → r = .value none) s := by
  by_cases hc : c.req = .get
  · rw [code, hc]
    refine Valid.map _ ?_
    rw [get]
    split
    · exact fun _ _ => rfl
    · refine Valid.bind (Region.get_has.weaken (fun _ _ => id) (fun _ _ => id) fun v s hs => ?_)
      cases v with
      | some v =>
        intro _ hgone
        obtain ⟨i, hi⟩ := hs rfl
        exact absurd hi (hgone .small i)
      | none =>
        refine Region.get_has.weaken (fun _ _ => id) (fun _ _ => id) fun v s hs _ hgone => ?_
        cases v with
        | none => rfl
        | some v =>
          obtain ⟨i, hi⟩ := hs rfl
          exact absurd hi (hgone .large i)
  · exact ((code_effect g c).mono fun _ _ _ => trivial).valid fun _ _ hget => absurd hget hc

/-! ## Schedules -/

section
variable (g : Config) (k : Bytes)

/-- What holds in every state that is reached. -/
structure DeleteInv (P : Pool Mem Call Res) : Prop where
  grows : P.Valid (fun _ => Fills) (fun _ => Grows g k) (fun _ _ _ => True)
  inPlace : InPlace g k P.shared
  fades : P.Guarded fun c s s' => (c.key = k → c.req.writes = false) → Fades g k s s'
  gets : P.Valid (fun _ _ _ => True) (fun _ _ _ => True)
    fun c r s => c.req = .get → Gone g c.key s → r = .value none

/-- A call that does not write the key. -/
def Unwritten (c : Call) : Prop := c.key = k → c.req.writes = false

/-- An event that starts no write of the key. -/
def UnwrittenBy (e : Event Call Nat) : Prop := ∀ t c, e = .call t c → Unwritten k c

end

variable {P : Pool Mem Call Res} {e : Event Call Nat}

theorem deleteInv_start (g : Config) (k : Bytes) (now : Nat) :
    DeleteInv g k (start (.init now)) := by
  refine ⟨valid_start _, fun r i hi => ?_, guarded_start _ _, valid_start _⟩
  simp [HasAt, Entry.matches, Mem.init, Entry.zeroed, start] at hi

/-- Every event keeps the invariant. -/
theorem DeleteInv.exec (h : DeleteInv g k P) (e : Event Call Nat) :
    DeleteInv g k (P.exec (code g) tick e) := by
  have hgrows : Grows g k P.shared (P.exec (code g) tick e).shared := by
    rcases h.grows.moves (fun _ _ _ _ => .refl _) (fun _ => .refl g k _) e (code g) tick with he |
      ⟨-, -, -, -, -, he⟩ | ⟨x, -, he⟩
    · rw [he]
      exact .refl g k _
    · exact he
    · rw [he]
      exact (fades_tick g k x P.shared).grows
  refine ⟨?_, h.inPlace.grows hgrows, ?_, ?_⟩
  · exact h.grows.exec (fun _ _ _ _ => .refl _) (fun _ => .refl g k _) e
      (fun _ c _ => code_grows g k c _) (fun _ _ _ _ => .trans) fun _ _ _ _ _ => hgrows.fills
  · refine h.fades.exec (fun c s _ => .refl g k s) (fun c => ?_) e
    by_cases hc : c.key = k → c.req.writes = false
    · exact (code_fades hc).mono fun _ _ hf _ => hf
    · exact (code_effect g c).mono fun _ _ _ h => absurd h hc
  · exact h.gets.exec (fun _ _ _ _ => trivial) (fun _ => trivial) e
      (fun _ c _ => code_get_none g c _) (fun _ _ _ _ _ _ => trivial) fun _ _ _ _ _ => trivial

/-- While no write of the key is under way, no entry of it is added. -/
theorem DeleteInv.exec_fades (h : DeleteInv g k P) (hc : P.Calls fun _ => Unwritten k)
    (e : Event Call Nat) : Fades g k P.shared (P.exec (code g) tick e).shared := by
  rcases exec_cases (code g) tick P e with he | ⟨t, c, -, he⟩ | ⟨t, c, p, -, ht, he⟩ |
    ⟨x, -, he⟩
  all_goals rw [he]
  · exact .refl g k _
  · rw [settle_shared]
    exact .refl g k _
  · rw [settle_shared]
    exact ((h.fades t c p ht).next (fun s _ => .refl g k s) P.shared).1 (hc t c p ht)
  · exact fades_tick g k x P.shared

/-- The callers and the table after more events. -/
abbrev later (g : Config) (P : Pool Mem Call Res) (es : List (Event Call Nat)) :
    Pool Mem Call Res := Run.runs (exec (code g) tick) P es

/-- What holds while no write of the key is under way. -/
def Settled (g : Config) (k : Bytes) (P : Pool Mem Call Res) : Prop :=
  DeleteInv g k P ∧ P.Calls fun _ => Unwritten k

/-- An event that begins no write of the key. -/
theorem Settled.exec (h : Settled g k P) (he : UnwrittenBy k e) :
    Settled g k (P.exec (code g) tick e) := ⟨h.1.exec e, h.2.exec he⟩

/-- A `delete` that returned has left no entry of its key. -/
theorem gone_of_returned {t : Nat} {d : Call} (hd : d.req = .delete) (h : Settled g d.key P)
    (hidle : P.thread t = none) {es : List (Event Call Nat)} (hes : ∀ e ∈ es, UnwrittenBy d.key e)
    (hret : (later g P (.call t d :: es)).thread t = none) :
    Settled g d.key (later g P (.call t d :: es)) ∧
      Gone g d.key (later g P (.call t d :: es)).shared := by
  have hcode : (code g d).Valid (Fades g d.key) (Fades g d.key) (fun _ s => Gone g d.key s)
      P.shared := by
    rw [code, hd]
    exact Valid.map _ (delete_gone h.1.inPlace)
  have hcall : UnwrittenBy d.key (.call t d) := by
    intro t' c he _
    cases he
    rw [hd]
    rfl
  have hkeep : ∀ P e, UnwrittenBy d.key e → Settled g d.key P ∧
      (P.Serves (Fades g d.key) (Fades g d.key) (fun _ s => Gone g d.key s) t d ∨
        Gone g d.key P.shared) →
      Settled g d.key (P.exec (code g) tick e) ∧
        ((P.exec (code g) tick e).Serves (Fades g d.key) (Fades g d.key)
          (fun _ s => Gone g d.key s) t d ∨ Gone g d.key (P.exec (code g) tick e).shared) := by
    rintro P e he ⟨hP, hs⟩
    have hmove := hP.1.exec_fades hP.2 e
    refine ⟨hP.exec he, ?_⟩
    rcases hs with hs | hg
    · refine (hs.exec (.refl g _ _) (fun _ _ _ => .trans) (.refl g _ _) e
        fun _ => hmove).imp_right ?_
      rintro ⟨a, s, heq, hq⟩
      rwa [heq, settle_shared]
    · exact .inr (hg.fades hmove)
  have hstart : (P.exec (code g) tick (.call t d)).Serves (Fades g d.key) (Fades g d.key)
      (fun _ s => Gone g d.key s) t d ∨ Gone g d.key (P.exec (code g) tick (.call t d)).shared := by
    refine (serves_call hidle hcode).imp_right ?_
    rintro ⟨a, heq, hq⟩
    rwa [heq, settle_shared]
  obtain ⟨hsettled, hserves⟩ := (along_of_mem (P.exec (code g) tick (.call t d)) hes).inv hkeep
    ⟨h.exec hcall, hstart⟩
  refine ⟨hsettled, hserves.resolve_left ?_⟩
  rintro ⟨p, hp, -⟩
  cases hret.symm.trans hp

theorem gets_none_of_gone (h : Settled g k P) (hgone : Gone g k P.shared)
    {es : List (Event Call Nat)} (hes : ∀ e ∈ es, UnwrittenBy k e) :
    ∃ new, (later g P es).done = new ++ P.done ∧
      ∀ x ∈ new, x.call.key = k → x.call.req = .get → x.res = .value none := by
  refine ((along_of_mem P hes).inv (I := fun P' => Settled g k P' ∧ Gone g k P'.shared ∧
    ∃ new, P'.done = new ++ P.done ∧
      ∀ x ∈ new, x.call.key = k → x.call.req = .get → x.res = .value none)
    (fun P' e he hP => ?_) ⟨h, hgone, [], rfl, by simp⟩).2.2
  obtain ⟨hP, hg, new, hnew, hnone⟩ := hP
  have hg' := hg.fades (hP.1.exec_fades hP.2 e)
  refine ⟨hP.exec he, hg', ?_⟩
  rcases hP.1.gets.done (fun _ _ _ _ => trivial) (fun _ => trivial) e
    (fun _ c _ => code_get_none g c _) with hdone | ⟨t, c, r, hdone, hr⟩
  · exact ⟨new, hdone.trans hnew, hnone⟩
  · refine ⟨⟨t, c, r⟩ :: new, by rw [hdone, hnew]; rfl, fun x hx hk hreq => ?_⟩
    rcases mem_cons.1 hx with rfl | hx
    · exact hr hreq (by rw [hk]; exact hg')
    · exact hnone x hx hk hreq

/-- **Deleted means deleted.** A `delete` starts when every write of its key has returned, and
returns. As long as no write of the key is called, every `get` of it that returns after that returns
nothing, whatever calls on other keys run at any time. -/
theorem deleted_stays_deleted (g : Config) (now : Nat) {es₁ es₂ es₃ : List (Event Call Nat)}
    {t : Nat} {d : Call} (hd : d.req = .delete) (hidle : (after g (.init now) es₁).thread t = none)
    (hwritten : (after g (.init now) es₁).Calls fun _ => Unwritten d.key)
    (hes₂ : ∀ e ∈ es₂, UnwrittenBy d.key e) (hes₃ : ∀ e ∈ es₃, UnwrittenBy d.key e)
    (hret : (after g (.init now) (es₁ ++ .call t d :: es₂)).thread t = none) :
    ∃ new, (after g (.init now) (es₁ ++ .call t d :: es₂ ++ es₃)).done =
        new ++ (after g (.init now) (es₁ ++ .call t d :: es₂)).done ∧
      ∀ x ∈ new, x.call.key = d.key → x.call.req = .get → x.res = .value none := by
  have hinv : DeleteInv g d.key (after g (.init now) es₁) :=
    runs_inv (fun P e h => h.exec e) es₁ (deleteInv_start g d.key now)
  have hcut : after g (.init now) (es₁ ++ .call t d :: es₂) =
      later g (after g (.init now) es₁) (.call t d :: es₂) := runs_append _ _ _
  rw [hcut] at hret
  obtain ⟨hsettled, hgone⟩ := gone_of_returned hd ⟨hinv, hwritten⟩ hidle hes₂ hret
  have hend : after g (.init now) (es₁ ++ .call t d :: es₂ ++ es₃) =
      later g (later g (after g (.init now) es₁) (.call t d :: es₂)) es₃ := by
    rw [← hcut]
    exact runs_append _ _ _
  rw [hcut, hend]
  exact gets_none_of_gone hsettled hgone hes₃

instance (k : Bytes) (c : Call) : Decidable (Unwritten k c) := inferInstanceAs (Decidable (_ → _))

instance (k : Bytes) (e : Event Call Nat) : Decidable (UnwrittenBy k e) :=
  match e with
  | .call t c => decidable_of_iff (Unwritten k c) ⟨fun h _ _ he => by cases he; exact h,
      fun h => h t c rfl⟩
  | .step _ => .isTrue fun _ _ he => by cases he
  | .env _ => .isTrue fun _ _ he => by cases he

/-- `k3` is set. -/
def setK3 : List (Event Call Nat) :=
  [.call 0 (callOn "k3" (.set [1] 0)), .step 0, .step 0, .step 0, .step 0]

/-- While caller `1` deletes it, another caller sets `k2`. -/
def setK2Meanwhile : List (Event Call Nat) :=
  [.call 2 (callOn "k2" (.set [2] 0)), .step 2, .step 1, .step 2, .step 1, .step 2]

def askK3 : List (Event Call Nat) :=
  [.step 2, .call 0 (callOn "k3" .get), .step 0, .step 2, .step 0, .step 0]

theorem deleted_k3 :
    (after tiny (.init 0) (setK3 ++ .call 1 (callOn "k3" .delete) :: setK2Meanwhile ++
      askK3)).done.map (·.res) = [.value none, .flag true, .flag true, .flag true] ∧ ∃ new,
      (after tiny (.init 0)
        (setK3 ++ .call 1 (callOn "k3" .delete) :: setK2Meanwhile ++ askK3)).done =
        new ++ (after tiny (.init 0)
          (setK3 ++ .call 1 (callOn "k3" .delete) :: setK2Meanwhile)).done ∧
      ∀ x ∈ new, x.call.key = (callOn "k3" .delete).key → x.call.req = .get →
        x.res = .value none := by
  refine ⟨by decide, ?_⟩
  refine deleted_stays_deleted tiny 0 rfl (by decide) (fun t c p ht => ?_)
    (by decide +kernel) (by decide +kernel) (by decide +kernel)
  have hidle : (after tiny (.init 0) setK3).thread t = none := by
    by_cases h0 : t = 0
    · subst h0
      decide
    · refine idle_of_not_called rfl fun c hc => ?_
      simp [setK3, h0] at hc
  cases hidle.symm.trans ht

end Askr.Kv
