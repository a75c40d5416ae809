import Askr.Kv.Route

/-!
# Concurrent writes of one key

Any number of `set`s of one key run at once, with any calls on other keys. Each walks the window of
the key, remembers the first free slot, writes it whatever is there by then, and makes tombstones of
all other entries of the key. Two that have remembered two slots sweep each other's entry, and the
key is lost (`sets_lose_key`).

As long as the first free slot stays the same while the key is absent (`SetsCalm`), all of them go
to that slot: a `set` has remembered it once its walk has passed it (`Scan`). `sets_converge`
follows by induction over the schedule: the key is in one slot from the first return on.
-/

namespace Askr.Kv

open Conc Prog Probe List Pool

section
variable (g : Config) (r : Region) (k : Bytes)

def firstFree (s : Mem) : Option Nat :=
  (g.window r (g.hash k)).find? fun i => (s.entry r i).state ≠ .occupied

/-- The key is in no slot of the region. -/
def Absent (s : Mem) : Prop := ∀ i, ¬ HasAt g r k s i

/-- The key is in one slot at most, where its walk gets to. -/
structure Single (s : Mem) : Prop where
  place : ∀ i, HasAt g r k s i → Place g r k s i
  one : ∀ i j, HasAt g r k s i → HasAt g r k s j → i = j

/-- A key that is absent has a free slot to go to. -/
def Roomy (s : Mem) : Prop := Absent g r k s → ∃ f, firstFree g r k s = some f

/-- The slot that the `set`s go to: the slot of the key, or the first free one. -/
structure Target (s : Mem) (t : Nat) : Prop where
  present : ∀ i, HasAt g r k s i → i = t
  absent : Absent g r k s → firstFree g r k s = some t

variable (V : Bytes → Prop)

/-- What a `set` of the key relies on: the others leave an entry of the key where it is, with its
value or one of `V`, and put the key nowhere else than into the first free slot, which does not
change before that. -/
structure SetsRely (s s' : Mem) : Prop where
  fills : Fills s s'
  single : Single g r k s'
  room : Roomy g r k s'
  keep : ∀ i, HasAt g r k s i → HasAt g r k s' i
  new : ∀ i, HasAt g r k s' i → HasAt g r k s i ∨ firstFree g r k s = some i
  same : Absent g r k s' → firstFree g r k s' = firstFree g r k s
  value : ∀ i, HasAt g r k s i → (s'.entry r i).val = (s.entry r i).val ∨ V (s'.entry r i).val
  other : ∀ i, HasAt g r.other k s' i → HasAt g r.other k s i

/-- What it does: it clears the other region, and writes the slot that they all go to. -/
inductive SetsActs (s : Mem) : Mem → Prop where
  | same : SetsActs s s
  | bury (j : Nat) : SetsActs s (s.bury r.other j)
  | write {t : Nat} {v : Bytes} (expires : Nat) : Target g r k s t → V v →
      SetsActs s (s.write r t k v (g.hash k) expires)

/-- The key is in the region with a value of `V`, and not in the other one. -/
structure Landed (s : Mem) : Prop where
  has : ∃ i, HasAt g r k s i ∧ V (s.entry r i).val
  other : ∀ i, ¬ HasAt g r.other k s i

/-- What the loop of a `set` has found after the slots `done`. -/
structure Scan (s : Mem) (done : List Nat) (a : SetAcc) : Prop where
  absent : Absent g r k s → ∀ f, firstFree g r k s = some f →
    a.reuse = if f ∈ done then some f else none
  present : ∀ i, HasAt g r k s i → i ∈ done → a.reuse = some i

end

variable {g : Config} {r : Region} {k : Bytes} {V : Bytes → Prop} {s s' s'' : Mem}

/-! ## What the others do -/

theorem SetsRely.absent (h : SetsRely g r k V s s') (ha : Absent g r k s') : Absent g r k s :=
  fun i hi => ha i (h.keep i hi)

theorem SetsRely.trans (h : SetsRely g r k V s s') (h' : SetsRely g r k V s' s'') :
    SetsRely g r k V s s'' := by
  refine ⟨h.fills.trans h'.fills, h'.single, h'.room, fun i hi => h'.keep i (h.keep i hi),
    fun i hi => ?_, fun ha => (h'.same ha).trans (h.same (h'.absent ha)), fun i hi => ?_,
    fun i hi => h.other i (h'.other i hi)⟩
  · rcases h'.new i hi with hi' | hf
    · exact h.new i hi'
    · by_cases ha : Absent g r k s'
      · exact .inr ((h.same ha).symm.trans hf)
      · obtain ⟨j, hj⟩ := Classical.not_forall_not.1 ha
        obtain rfl := h'.single.one j i (h'.keep j hj) hi
        exact h.new j hj
  · rcases h'.value i (h.keep i hi) with hv | hv
    · rcases h.value i hi with hv' | hv'
      exacts [.inl (hv.trans hv'), .inr (hv ▸ hv')]
    · exact .inr hv

theorem SetsRely.refl (hs : Single g r k s) (hroom : Roomy g r k s) : SetsRely g r k V s s :=
  ⟨.refl s, hs, hroom, fun _ => id, fun _ => .inl, fun _ => rfl, fun _ _ => .inl rfl, fun _ => id⟩

theorem Target.rely {t : Nat} (h : Target g r k s t) (hr : SetsRely g r k V s s') :
    Target g r k s' t := by
  refine ⟨fun i hi => ?_, fun ha => (hr.same ha).trans (h.absent (hr.absent ha))⟩
  rcases hr.new i hi with hi' | hf
  · exact h.present i hi'
  · by_cases ha : Absent g r k s
    · exact Option.some.inj (hf.symm.trans (h.absent ha))
    · obtain ⟨j, hj⟩ := Classical.not_forall_not.1 ha
      rw [← h.present j hj]
      exact hr.single.one i j hi (hr.keep j hj)

theorem Landed.rely (h : Landed g r k V s) (hr : SetsRely g r k V s s') : Landed g r k V s' := by
  obtain ⟨i, hi, hv⟩ := h.has
  refine ⟨⟨i, hr.keep i hi, ?_⟩, fun j hj => h.other j (hr.other j hj)⟩
  rcases hr.value i hi with hv' | hv'
  exacts [hv' ▸ hv, hv']

theorem Scan.rely {done : List Nat} {a : SetAcc} (h : Scan g r k s done a)
    (hr : SetsRely g r k V s s') : Scan g r k s' done a := by
  refine ⟨fun ha f hf => ?_, fun i hi hdone => ?_⟩
  · exact h.absent (hr.absent ha) f ((hr.same ha).symm.trans hf)
  · rcases hr.new i hi with hi' | hf
    · exact h.present i hi' hdone
    · by_cases ha : Absent g r k s
      · simpa [hdone] using h.absent ha i hf
      · obtain ⟨j, hj⟩ := Classical.not_forall_not.1 ha
        obtain rfl := hr.single.one j i (hr.keep j hj) hi
        exact h.present j hj hdone

theorem Target.place {t : Nat} (h : Target g r k s t) (hs : Single g r k s) : Place g r k s t := by
  by_cases ha : Absent g r k s
  · exact (place_find? (h.absent ha)).1
  · obtain ⟨j, hj⟩ := Classical.not_forall_not.1 ha
    exact h.present j hj ▸ hs.place j hj

theorem SetsActs.rely (hk : k.length ≤ KEY_MAX) (hs : Single g r k s) (hroom : Roomy g r k s)
    (h : SetsActs g r k V s s') : SetsRely g r k V s s' := by
  cases h with
  | same => exact .refl hs hroom
  | bury j =>
    have he : (s.bury r.other j).entry r = s.entry r := s.put_region _ _ _ r.other_ne.symm
    have hhas : ∀ i, HasAt g r k (s.bury r.other j) i ↔ HasAt g r k s i := by
      simp only [HasAt, he, implies_true]
    have hfree : firstFree g r k (s.bury r.other j) = firstFree g r k s := by
      rw [firstFree, firstFree, he]
    refine ⟨(Fades.bury (g := g) (k := k) s _ j).fills, ⟨fun i hi => ?_, fun i i' hi hi' => ?_⟩,
      fun ha => ?_, fun i hi => (hhas i).2 hi, fun i hi => .inl ((hhas i).1 hi), fun _ => hfree,
      fun i _ => .inl (by rw [he]), (Fades.bury s _ j).had _⟩
    · have hp := hs.place i ((hhas i).1 hi)
      exact ⟨hp.1, fun x hx => by rw [he]; exact hp.2 x hx⟩
    · exact hs.one i i' ((hhas i).1 hi) ((hhas i').1 hi')
    · rw [hfree]
      exact hroom fun i hi => ha i ((hhas i).2 hi)
  | @write t v expires ht hv =>
    have hfills : Fills s (s.write r t k v (g.hash k) expires) :=
      (CallEffect.write s t v expires).fills
    have hself : HasAt g r k (s.write r t k v (g.hash k) expires) t := by
      simp [HasAt, Mem.write, Entry.matches, hk]
    have honly : ∀ i, HasAt g r k (s.write r t k v (g.hash k) expires) i → i = t := by
      intro i hi
      by_contra hne
      exact hne (ht.present i (by simpa [HasAt, Mem.write, hne] using hi))
    refine ⟨hfills, ⟨fun i hi => ?_, fun i j hi hj => (honly i hi).trans (honly j hj).symm⟩,
      fun ha => absurd hself (ha t), fun i hi => ht.present i hi ▸ hself, fun i hi => ?_,
      fun ha => absurd hself (ha t), fun i hi => ?_, fun i hi => ?_⟩
    · rw [honly i hi]
      exact (ht.place hs).fills hfills
    · rw [honly i hi]
      by_cases ha : Absent g r k s
      · exact .inr (ht.absent ha)
      · obtain ⟨j, hj⟩ := Classical.not_forall_not.1 ha
        exact .inl (ht.present j hj ▸ hj)
    · rw [ht.present i hi]
      exact .inr (by simpa [Mem.write] using hv)
    · rwa [HasAt, Mem.write, Mem.put_region _ _ _ _ r.other_ne] at hi

/-! ## The loop -/

theorem scan_start (g : Config) (r : Region) (k : Bytes) (s : Mem) (h slots : Nat) :
    Scan g r k s [] (.start h slots) := ⟨by simp [SetAcc.start], by simp⟩

section
variable {done rest : List Nat} {a : SetAcc} {j now : Nat} (h : Scan g r k s done a)
  (hpath : g.window r (g.hash k) = done ++ j :: rest)
include h hpath

theorem Scan.see (hj : ¬ HasAt g r k s j) :
    Scan g r k s (done ++ [j]) (a.see j (s.entry r j) now) := by
  refine ⟨fun ha f hf => ?_, fun i hi hdone => ?_⟩
  · have hreuse := h.absent ha f hf
    rw [SetAcc.see]
    split
    · rename_i hocc
      have hjf : f ≠ j := fun he => (place_find? hf).2 (he ▸ hocc)
      simp [hreuse, hjf]
    · rename_i hfree
      simp only [hreuse]
      rcases mem_passed_of_find? hf (by simp [hpath] : j ∈ _) (by simpa using hfree) with rfl | hb
      · by_cases hm : j ∈ done <;> simp [hm]
      · rw [hpath] at hb
        simp [passed_subset hb]
  · have hij : i ≠ j := by
      rintro rfl
      exact hj hi
    have hreuse := h.present i hi (by simpa [hij] using hdone)
    rw [SetAcc.see]
    split
    exacts [hreuse, by simp [hreuse]]

omit hpath in
theorem Scan.target_all (hs : Single g r k s) (hroom : Roomy g r k s)
    (hpath : g.window r (g.hash k) = done) : Target g r k s a.target := by
  refine ⟨fun i hi => ?_, fun ha => ?_⟩
  · have hreuse := h.present i hi (hpath ▸ (hs.place i hi).1)
    simp [SetAcc.target, hreuse]
  · obtain ⟨f, hf⟩ := hroom ha
    have hreuse := h.absent ha f hf
    rw [if_pos (hpath ▸ (place_find? hf).1.1)] at hreuse
    simp [SetAcc.target, hreuse, hf]

theorem Scan.target_end (hs : Single g r k s) (hroom : Roomy g r k s)
    (hempty : (s.entry r j).state = .empty) :
    Target g r k s (a.see j (s.entry r j) now).target := by
  have hj : ¬ HasAt g r k s j := fun hj => by simp [hj.occupied] at hempty
  have hsee : Scan g r k s (done ++ [j]) (a.see j (s.entry r j) now) := h.see hpath hj
  refine ⟨fun i hi => ?_, fun ha => ?_⟩
  · have hreuse := hsee.present i hi
      (mem_append_left _ ((hs.place i hi).mem_done hpath hempty hi))
    simp [SetAcc.target, hreuse]
  · obtain ⟨f, hf⟩ := hroom ha
    have hmem : f ∈ done ++ [j] := by
      rcases mem_passed_of_find? hf (by simp [hpath] : j ∈ _) (by simp [hempty]) with rfl | hb
      · simp
      · rw [hpath] at hb
        exact mem_append_left _ (passed_subset hb)
    have hreuse := hsee.absent ha f hf
    rw [if_pos hmem] at hreuse
    simp [SetAcc.target, hreuse, hf]

end

/-! ## One of the `set`s -/

section
variable {v : Bytes} (hk : k.length ≤ KEY_MAX) (hv : V v)
include hk

theorem landed_write (hv : V v) (hno : ∀ i, ¬ HasAt g r.other k s i) (t expires : Nat) :
    Landed g r k V (s.write r t k v (g.hash k) expires) := by
  refine ⟨⟨t, by simp [HasAt, Mem.write, Entry.matches, hk], by simpa [Mem.write] using hv⟩,
    fun i hi => hno i ?_⟩
  rwa [HasAt, Mem.write, Mem.put_region _ _ _ _ r.other_ne] at hi

omit hk in
theorem tombstoneOthers_landed {t : Nat} (ht : HasAt g r k s t) (hs : Landed g r k V s)
    (w : List Nat) :
    (tombstoneOthers r k (g.hash k) t w).Valid (SetsRely g r k V) (SetsActs g r k V)
      (fun _ s => Landed g r k V s) s := by
  induction w generalizing s with
  | nil => exact hs
  | cons j w ih =>
    rw [tombstoneOthers]
    split
    · exact ih ht hs
    · rename_i hj
      refine valid_atom fun s' hs' => ?_
      have hm : (s'.entry r j).matches k (g.hash k) = false :=
        Bool.eq_false_iff.2 fun hm => hj (hs'.single.one j t hm (hs'.keep t ht))
      simp only [hm, Bool.false_eq_true, if_false]
      split
      exacts [⟨.same, hs.rely hs'⟩, ⟨.same, ih (hs'.keep t ht) (hs.rely hs')⟩]

include hv

theorem setWrite_landed {t : Nat} (ht : Target g r k s t) (hno : ∀ i, ¬ HasAt g r.other k s i)
    (expires : Nat) :
    (setWrite g r k v (g.hash k) expires t).Valid (SetsRely g r k V) (SetsActs g r k V)
      (fun _ s => Landed g r k V s) s := by
  refine valid_atom fun s' hs' => ⟨.write expires (ht.rely hs') hv, ?_⟩
  have hno' : ∀ i, ¬ HasAt g r.other k s' i := fun i hi => hno i (hs'.other i hi)
  exact tombstoneOthers_landed (by simp [HasAt, Mem.write, Entry.matches, hk])
    (landed_write hk hv hno' t expires) _

theorem setScan_landed {done rest : List Nat} {a : SetAcc} (expires now : Nat)
    (hs : Single g r k s) (hroom : Roomy g r k s)
    (hpath : g.window r (g.hash k) = done ++ rest) (ha : Scan g r k s done a)
    (hno : ∀ i, ¬ HasAt g r.other k s i) :
    (setScan g r k v (g.hash k) expires now rest a).Valid (SetsRely g r k V) (SetsActs g r k V)
      (fun _ s => Landed g r k V s) s := by
  induction rest generalizing done a s with
  | nil =>
    rw [append_nil] at hpath
    exact setWrite_landed hk hv (ha.target_all hs hroom hpath) hno expires
  | cons j rest ih =>
    refine valid_atom fun s' hs' => ?_
    have ha' := ha.rely hs'
    have hno' : ∀ i, ¬ HasAt g r.other k s' i := fun i hi => hno i (hs'.other i hi)
    split
    · rename_i hm
      have ht : Target g r k s' j :=
        ⟨fun i hi => hs'.single.one i j hi hm, fun habs => absurd hm (habs j)⟩
      exact ⟨.write expires ht hv, landed_write hk hv hno' j expires⟩
    · rename_i hm
      refine ⟨.same, ?_⟩
      simp only
      split
      · rename_i hempty
        exact setWrite_landed hk hv (ha'.target_end hpath hs'.single hs'.room hempty) hno' expires
      · have hpath' : g.window r (g.hash k) = (done ++ [j]) ++ rest := by simp [hpath]
        exact ih hs'.single hs'.room hpath' (ha'.see hpath hm) hno'

/-- **One of the `set`s** puts its key into the slot that they all go to. -/
theorem set_landed (hr : home v = r) (hlen : v.length ≤ VAL_LARGE) (hslots : g.slots r ≠ 0)
    (hin : ∀ i, HasAt g r.other k s i → g.slots r.other ≠ 0 ∧ Place g r.other k s i) (ttl : Nat) :
    (set g k v ttl).Valid (SetsRely g r k V) (SetsActs g r k V) (fun _ s => Landed g r k V s)
      s := by
  rw [set_eq hk hlen, hr]
  refine Valid.bind ?_
  have hclear : (r.other.delete g k (g.hash k)).Valid (SetsRely g r k V)
      (fun s s' => s' = s ∨ ∃ j, s' = s.bury r.other j) (fun _ _ => True) s :=
    (Region.delete_buries g _ _ _).valid fun _ _ => trivial
  refine (((Region.clear_gone hin).weaken (fun s s' h => ⟨h.fills _, h.other⟩) (fun _ _ h => h)
    fun _ _ h => h).and hclear).weaken (fun _ _ h => h) (fun s s' h => ?_) fun _ s h => ?_
  · rcases h.2 with rfl | ⟨j, rfl⟩
    exacts [.same, .bury j]
  · rw [Region.set, if_neg hslots, if_neg (Nat.not_lt.2 (hr ▸ length_le_valMax hlen))]
    refine valid_read (fun _ => .same) fun s' hs' => ?_
    exact setScan_landed hk hv _ _ hs'.single hs'.room (nil_append _).symm
      (scan_start g r k s' _ _) fun i hi => h.1 i (hs'.other i hi)

end

/-! ## Calls on other keys -/

theorem CallEffect.entry_eq {key : Bytes} {h i : Nat} (he : CallEffect key h s s') (hne : key ≠ k)
    (hi : HasAt g r k s i) (hi' : HasAt g r k s' i) : s'.entry r i = s.entry r i := by
  rcases (he.slot r i).of_matches hne hi with hsame | ⟨-, hm⟩
  · exact hsame
  · cases hm.symm.trans hi'

theorem CallEffect.setsRely {key : Bytes} {h : Nat} (he : CallEffect key h s s') (hne : key ≠ k)
    (hs : Single g r k s) (hroom : Roomy g r k s) (hkeep : ∀ i, HasAt g r k s i → HasAt g r k s' i)
    (hsame : Absent g r k s → firstFree g r k s' = firstFree g r k s) : SetsRely g r k V s s' := by
  have hf : Fades g k s s' := he.fades hne
  have habs : Absent g r k s' → Absent g r k s := fun ha i hi => ha i (hkeep i hi)
  have hs' : Single g r k s' := ⟨fun i hi => (hs.place i (hf.had r i hi)).fills hf.fills,
    fun i j hi hj => hs.one i j (hf.had r i hi) (hf.had r j hj)⟩
  refine ⟨hf.fills, hs', fun ha => ?_, hkeep, fun i hi => .inl (hf.had r i hi),
    fun ha => hsame (habs ha), fun i hi => .inl ?_, hf.had _⟩
  · rw [hsame (habs ha)]
    exact hroom (habs ha)
  · rw [he.entry_eq hne hi (hkeep i hi)]

theorem setsRely_tick (hs : Single g r k s) (hroom : Roomy g r k s) (d : Nat) :
    SetsRely g r k V s (tick d s) :=
  ⟨fun _ _ => id, ⟨hs.place, hs.one⟩, hroom, fun _ => id, fun _ => .inl, fun _ => rfl,
    fun _ _ => .inl rfl, fun _ => id⟩

/-! ## Schedules -/

section
variable (g : Config) (r : Region) (k : Bytes)

/-- A `set` of the key is under way. -/
def UnderWay (P : Pool Mem Call Res) : Prop := ∃ t c p, P.thread t = some (c, p) ∧ c.key = k

/-- The call that an event is an action of. -/
def stepOf (P : Pool Mem Call Res) : Event Call Nat → Option Call
  | .step t => (P.thread t).map (·.1)
  | _ => none

/-- No call on another key evicts the key. -/
def Unevicted (P : Pool Mem Call Res) (e : Event Call Nat) : Prop :=
  ∀ c ∈ stepOf P e, c.key ≠ k → ∀ i ∈ g.window r (g.hash k), HasAt g r k P.shared i →
    HasAt g r k (P.exec (code g) tick e).shared i

/-- **The first free slot stays the same**: while a `set` of the key is under way and the key is
absent, no action of a call on another key takes that slot or frees one in front of it. And there is
one, when a `set` of the key is called. -/
structure SetsCalm (P : Pool Mem Call Res) (e : Event Call Nat) : Prop where
  room : ∀ t c, e = .call t c → c.key = k → Roomy g r k P.shared
  same : ∀ c ∈ stepOf P e, c.key ≠ k → UnderWay k P → Absent g r k P.shared →
    firstFree g r k (P.exec (code g) tick e).shared = firstFree g r k P.shared

variable (V : Bytes → Prop)

/-- A call on another key, or a `set` of the key to a value of `V` in the region. -/
def Sets (c : Call) : Prop :=
  c.key = k → ∃ v ttl, c.req = .set v ttl ∧ home v = r ∧ v.length ≤ VAL_LARGE ∧ V v

/-- What holds in every state that is reached. -/
structure ConvInv (P : Pool Mem Call Res) : Prop where
  inPlace : InPlace g k P.shared
  one : ∀ i j, HasAt g r k P.shared i → HasAt g r k P.shared j → i = j
  room : UnderWay k P → Roomy g r k P.shared
  valid : P.Valid (fun c s s' => c.key = k → SetsRely g r k V s s')
    (fun c s s' => (c.key = k → SetsActs g r k V s s') ∧ CallEffect c.key (g.hash c.key) s s')
    fun c _ s => c.key = k → Landed g r k V s
  landed : ∀ x ∈ P.done, x.call.key = k → Landed g r k V P.shared

end

variable {P : Pool Mem Call Res} {e : Event Call Nat}

theorem ConvInv.single (h : ConvInv g r k V P) : Single g r k P.shared :=
  ⟨fun i hi => (h.inPlace r i hi).2, h.one⟩

theorem code_landed {c : Call} (hk : k.length ≤ KEY_MAX) (hslots : g.slots r ≠ 0)
    (hc : Sets r k V c) (hin : InPlace g k s) :
    (code g c).Valid (fun s s' => c.key = k → SetsRely g r k V s s')
      (fun s s' => (c.key = k → SetsActs g r k V s s') ∧ CallEffect c.key (g.hash c.key) s s')
      (fun _ s => c.key = k → Landed g r k V s) s := by
  by_cases hkey : c.key = k
  · obtain ⟨v, ttl, hreq, hr, hlen, hv⟩ := hc hkey
    have hset : (code g c).Valid (fun s s' => c.key = k → SetsRely g r k V s s')
        (fun s s' => c.key = k → SetsActs g r k V s s') (fun _ s => c.key = k → Landed g r k V s)
        s := by
      rw [code, hreq, hkey]
      exact Valid.map _ ((set_landed hk hv hr hlen hslots (hin r.other) ttl).weaken
        (fun _ _ h => h rfl) (fun _ _ h _ => h) fun _ _ h _ => h)
    exact (hset.and ((code_effect g c).valid fun _ _ => trivial)).weaken (fun _ _ h => h)
      (fun _ _ h => h) fun _ _ h => h.1
  · exact ((code_effect g c).mono fun _ _ he => ⟨fun h => absurd h hkey, he⟩).valid
      fun _ _ h => absurd h hkey

section
variable (hk : k.length ≤ KEY_MAX) (h : ConvInv g r k V P)
include h

theorem ConvInv.self {t : Nat} {c : Call} {p : Prog Mem Res} (ht : P.thread t = some (c, p))
    (hc : c.key = k) : SetsRely g r k V P.shared P.shared :=
  .refl h.single (h.room ⟨t, c, p, ht, hc⟩)

/-- What an event does to the table. -/
theorem ConvInv.moves (e : Event Call Nat) : (P.exec (code g) tick e).shared = P.shared ∨
      (∃ t c p, P.thread t = some (c, p) ∧ c ∈ stepOf P e ∧
        (c.key = k → SetsActs g r k V P.shared (P.exec (code g) tick e).shared) ∧
        CallEffect c.key (g.hash c.key) P.shared (P.exec (code g) tick e).shared) ∨
      ∃ d, (P.exec (code g) tick e).shared = tick d P.shared := by
  rcases h.valid.moves (fun _ _ _ ht hc => h.self ht hc) (fun _ => ⟨fun _ => .same, .refl _ _ _⟩) e
    (code g) tick with hm | ⟨t, c, p, rfl, ht, hm⟩ | ⟨d, -, hm⟩
  exacts [.inl hm, .inr (.inl ⟨t, c, p, ht, by simp [stepOf, ht], hm⟩), .inr (.inr ⟨d, hm⟩)]

include hk

/-- While a `set` of the key is under way, every event is one that it relies on. -/
theorem ConvInv.rely (hunder : UnderWay k P) (hcalm : SetsCalm g r k P e)
    (hev : Unevicted g r k P e) : SetsRely g r k V P.shared (P.exec (code g) tick e).shared := by
  have hroom := h.room hunder
  rcases h.moves e with hm | ⟨t, c, p, ht, hstep, hacts, heff⟩ | ⟨d, hm⟩
  · rw [hm]
    exact .refl h.single hroom
  · by_cases hc : c.key = k
    · exact (hacts hc).rely hk h.single hroom
    · exact heff.setsRely hc h.single hroom
        (fun i hi => hev c hstep hc i (h.single.place i hi).1 hi)
        (hcalm.same c hstep hc hunder)
  · rw [hm]
    exact setsRely_tick h.single hroom d

omit hk in
/-- While none is, no entry of the key is added, and the one there is stays. -/
theorem ConvInv.fades (hunder : ¬ UnderWay k P) (hev : Unevicted g r k P e) :
    Fades g k P.shared (P.exec (code g) tick e).shared ∧
      (Landed g r k V P.shared → Landed g r k V (P.exec (code g) tick e).shared) := by
  rcases h.moves e with hm | ⟨t, c, p, ht, hstep, -, heff⟩ | ⟨d, hm⟩
  · rw [hm]
    exact ⟨.refl g k _, id⟩
  · have hc : c.key ≠ k := fun hc => hunder ⟨t, c, p, ht, hc⟩
    have hf : Fades g k P.shared (P.exec (code g) tick e).shared := heff.fades hc
    refine ⟨hf, fun hl => ?_⟩
    obtain ⟨i, hi, hv⟩ := hl.has
    have hi' := hev c hstep hc i (h.single.place i hi).1 hi
    exact ⟨⟨i, hi', by rwa [heff.entry_eq hc hi hi']⟩, fun j hj => hl.other j (hf.had _ j hj)⟩
  · rw [hm]
    exact ⟨fades_tick g k d _, fun hl => ⟨hl.has, hl.other⟩⟩

/-- **One event.** -/
theorem ConvInv.exec (hslots : g.slots r ≠ 0) (hcalm : SetsCalm g r k P e)
    (hev : Unevicted g r k P e) (hcall : ∀ t c, e = .call t c → Sets r k V c) :
    ConvInv g r k V (P.exec (code g) tick e) := by
  have hself : ∀ t c p, P.thread t = some (c, p) → c.key = k → SetsRely g r k V P.shared P.shared :=
    fun _ _ _ ht hc => h.self ht hc
  have hcode : ∀ t c, e = .call t c → (code g c).Valid _ _ _ P.shared :=
    fun t c he => code_landed (V := V) hk hslots (hcall t c he) h.inPlace
  have hgrows : InPlace g k (P.exec (code g) tick e).shared ∧ Single g r k
      (P.exec (code g) tick e).shared ∧ (Landed g r k V P.shared →
        Landed g r k V (P.exec (code g) tick e).shared) := by
    by_cases hunder : UnderWay k P
    · have hrely := h.rely hk hunder hcalm hev
      refine ⟨fun r' i hi => ?_, hrely.single, fun hl => hl.rely hrely⟩
      rcases r.eq_or_other r' with rfl | rfl
      · exact ⟨hslots, hrely.single.place i hi⟩
      · obtain ⟨h1, h2⟩ := h.inPlace _ i (hrely.other i hi)
        exact ⟨h1, h2.fills hrely.fills⟩
    · obtain ⟨hf, hl⟩ := h.fades hunder hev
      have hin := h.inPlace.grows hf.grows
      exact ⟨hin, ⟨fun i hi => (hin r i hi).2, fun i j hi hj =>
        h.one i j (hf.had r i hi) (hf.had r j hj)⟩, hl⟩
  refine ⟨hgrows.1, hgrows.2.1.one, fun hunder' => ?_, ?_, fun x hx hxk => ?_⟩
  · by_cases hunder : UnderWay k P
    · exact (h.rely hk hunder hcalm hev).room
    · obtain ⟨t, c, p, ht, hc⟩ := hunder'
      rcases exec_cases (code g) tick P e with hx | ⟨t', c', he, hx⟩ |
        ⟨t', c', p', -, ht', hx⟩ | ⟨d, -, hx⟩
      all_goals rw [hx] at ht
      · exact absurd ⟨t, c, p, ht, hc⟩ hunder
      · rcases settle_thread_cases ht with ⟨-, rfl, -⟩ | ⟨-, hold⟩
        · rw [hx, settle_shared]
          exact hcalm.room t' c he hc
        · exact absurd ⟨t, c, p, hold, hc⟩ hunder
      · rcases settle_thread_cases ht with ⟨-, rfl, -⟩ | ⟨-, hold⟩
        exacts [absurd ⟨t', c, p', ht', hc⟩ hunder, absurd ⟨t, c, p, hold, hc⟩ hunder]
      · exact absurd ⟨t, c, p, ht, hc⟩ hunder
  · exact h.valid.exec hself (fun _ => ⟨fun _ => .same, .refl _ _ _⟩) e hcode
      (fun c _ _ _ h1 h2 hc => (h1 hc).trans (h2 hc))
      fun t c p ht _ hc => h.rely hk ⟨t, c, p, ht, hc⟩ hcalm hev
  · exact h.valid.forall_done hself (fun _ => ⟨fun _ => .same, .refl _ _ _⟩) e hcode
      (fun _ _ h => h) (fun y hy hyk => hgrows.2.2 (h.landed y hy hyk)) x hx hxk

end

/-- A value that a `set` of the key is called with. -/
def Called (k : Bytes) (es : List (Event Call Nat)) (v : Bytes) : Prop :=
  ∃ t c ttl, .call t c ∈ es ∧ c.key = k ∧ c.req = .set v ttl

/-- Every call on the key is a `set` to a value of the region. -/
def SetsOnly (r : Region) (k : Bytes) (es : List (Event Call Nat)) : Prop :=
  ∀ t c, .call t c ∈ es → c.key = k →
    ∃ v ttl, c.req = .set v ttl ∧ home v = r ∧ v.length ≤ VAL_LARGE

/-- The key is in one slot, and unless that has expired a lookup reads a value of `V`. -/
def Converged (g : Config) (r : Region) (k : Bytes) (V : Bytes → Prop) (s : Mem) : Prop :=
  ∃ i, HasAt g r k s i ∧ (∀ r' j, HasAt g r' k s j → r' = r ∧ j = i) ∧
    ((s.entry r i).expired s.nowSecs = false → ∃ v, V v ∧ ((get g k).run s).2 = some v)

theorem Landed.converged (h : Landed g r k V s) (hs : Single g r k s) (hslots : g.slots r ≠ 0) :
    Converged g r k V s := by
  obtain ⟨i, hi, hv⟩ := h.has
  refine ⟨i, hi, fun r' j hj => ?_, fun hexp => ⟨_, hv, ?_⟩⟩
  · rcases r.eq_or_other r' with rfl | rfl
    exacts [⟨rfl, hs.one j i hj hi⟩, absurd hj (h.other j)]
  · have hl : Leads g k r s i := by
      refine ⟨hi, hs.place i hi, fun j hj hj' => ?_⟩
      obtain rfl := hs.one j i hj' hi
      exact not_mem_passed hj
    rw [get_leads hslots (fun hlarge j => ?_) hl hexp]
    subst hlarge
    exact h.other j

/-- **Concurrent `set`s of one key converge.** Any number of `set`s of the key to values of one size
run with any calls on other keys that do not evict it. In every run in which the first free slot of
the window stays the same while the key is absent and a `set` of it is under way, from the first
return of a `set` on, the key is in one slot, and a lookup reads one of the values. -/
theorem sets_converge {es : List (Event Call Nat)} (hk : k.length ≤ KEY_MAX)
    (hslots : g.slots r ≠ 0) (hin : InPlace g k s)
    (hone : ∀ i j, HasAt g r k s i → HasAt g r k s j → i = j) (hes : SetsOnly r k es)
    (hev : Run.Along (exec (code g) tick) (Unevicted g r k) (start s) es)
    (hcalm : Run.Along (exec (code g) tick) (SetsCalm g r k) (start s) es)
    (hret : ∃ x ∈ (after g s es).done, x.call.key = k) :
    Converged g r k (Called k es) (after g s es).shared := by
  have hcalls : ∀ e ∈ es, ∀ t c, e = .call t c → Sets r k (Called k es) c := by
    rintro e he t c rfl hc
    obtain ⟨v, ttl, hreq, hr, hlen⟩ := hes t c he hc
    exact ⟨v, ttl, hreq, hr, hlen, t, c, ttl, he, hc, hreq⟩
  have hstart : ConvInv g r k (Called k es) (start s) :=
    ⟨hin, hone, fun ⟨_, _, _, ht, _⟩ => (by cases ht), valid_start s, by simp [start]⟩
  have hend : ConvInv g r k (Called k es) (after g s es) :=
    ((hcalm.and hev).and_mem hcalls).inv (I := ConvInv g r k (Called k es))
      (fun P e he h => h.exec hk hslots he.1.1 he.1.2 he.2) hstart
  obtain ⟨x, hx, hxk⟩ := hret
  exact (hend.landed x hx hxk).converged hend.single hslots

/-! ## Two runs -/

instance (g : Config) (r : Region) (k : Bytes) (P : Pool Mem Call Res) (e : Event Call Nat) :
    Decidable (Unevicted g r k P e) :=
  inferInstanceAs (Decidable (∀ c ∈ stepOf P e, _))

/-- All `set`s of a key that is not evicted converge, once everyone has returned. -/
def SetsConverge (g : Config) : Prop :=
  ∀ r k s es, k.length ≤ KEY_MAX → g.slots r ≠ 0 → InPlace g k s →
    (∀ i j, HasAt g r k s i → HasAt g r k s j → i = j) → SetsOnly r k es →
    Run.Along (exec (code g) tick) (Unevicted g r k) (start s) es →
    (∀ t, (after g s es).thread t = none) → (∃ x ∈ (after g s es).done, x.call.key = k) →
    Converged g r k (Called k es) (after g s es).shared

/-- The key that is set. Its home slot in sixteen is that of `k2`. -/
def k3 : Bytes := Ns.key none (Bytes.ofString "k3")

/-- `k2` is set. A first `set` of `k3` passes its slot and remembers the one behind it; `k2` is
deleted; a second `set` of `k3` remembers the slot of `k2`. Both write, and both sweep. -/
def deleteBetweenSets : List (Event Call Nat) :=
  [.call 0 (callOn "k2" (.set [0] 0)), .step 0, .step 0, .step 0, .step 0,
    .call 1 (callOn "k3" (.set [1] 0)), .step 1, .step 1, .step 1,
    .call 0 (callOn "k2" .delete), .step 0, .step 0,
    .call 2 (callOn "k3" (.set [2] 0)), .step 2, .step 2, .step 2,
    .step 2, .step 1, .step 2, .step 2, .step 1, .step 1]

theorem sets_lose_key : ¬ SetsConverge tiny := by
  intro h
  have hstart : ∀ i, ¬ HasAt tiny .small k3 (.init 0) i := fun i hi => by
    simp [HasAt, Entry.matches, Mem.init, Entry.zeroed] at hi
  have hcalls : ∀ t c, .call t c ∈ deleteBetweenSets → t ∈ [0, 1, 2] ∧ (c.key = k3 →
      ∃ v ttl, c.req = .set v ttl ∧ home v = .small ∧ v.length ≤ VAL_LARGE) := by
    intro t c hc
    simp only [deleteBetweenSets, mem_cons, not_mem_nil, or_false, reduceCtorEq,
      Event.call.injEq, false_or] at hc
    rcases hc with ⟨rfl, rfl⟩ | ⟨rfl, rfl⟩ | ⟨rfl, rfl⟩ | ⟨rfl, rfl⟩
    · exact ⟨by decide, fun hk => absurd hk (by decide)⟩
    · exact ⟨by decide, fun _ => ⟨_, _, rfl, by decide, by decide⟩⟩
    · exact ⟨by decide, fun hk => absurd hk (by decide)⟩
    · exact ⟨by decide, fun _ => ⟨_, _, rfl, by decide, by decide⟩⟩
  have hin : InPlace tiny k3 (after tiny (.init 0) deleteBetweenSets).shared :=
    (Run.runs_inv (I := DeleteInv tiny k3) (fun _ e hI => hI.exec e) deleteBetweenSets
      (deleteInv_start tiny k3 0)).inPlace
  obtain ⟨i, hi, -, -⟩ := h .small k3 (.init 0) deleteBetweenSets (by decide) (by decide)
    (deleteInv_start tiny k3 0).inPlace (fun i j hi => absurd hi (hstart i))
    (fun t c hc => (hcalls t c hc).2) (by decide)
    (idle_all [0, 1, 2] (fun _ => rfl) (fun t c hc => (hcalls t c hc).1) (by decide))
    (by decide)
  have hmem := (hin .small i hi).2.1
  revert hi
  revert hmem
  revert i
  decide

theorem setsCalm_of_free {P : Pool Mem Call Res} {e : Event Call Nat}
    (hfree : (firstFree g r k P.shared).isSome)
    (hsame : ∀ c ∈ stepOf P e, c.key ≠ k → (∃ i ∈ g.window r (g.hash k), HasAt g r k P.shared i) ∨
      firstFree g r k (P.exec (code g) tick e).shared = firstFree g r k P.shared) :
    SetsCalm g r k P e := by
  refine ⟨fun _ _ _ _ _ => Option.isSome_iff_exists.1 hfree, fun c hc hne _ habs => ?_⟩
  rcases hsame c hc hne with ⟨i, -, hi⟩ | hsame
  exacts [absurd hi (habs i), hsame]

/-- Two `set`s of `k3` run at once with a `set` of `k2`. -/
def setsAndSet : List (Event Call Nat) :=
  [.call 1 (callOn "k3" (.set [1] 0)), .call 0 (callOn "k2" (.set [0] 0)), .step 0, .step 1,
    .step 1, .call 2 (callOn "k3" (.set [2] 0)), .step 2, .step 2, .step 1, .step 0, .step 2,
    .step 1, .step 0, .step 2, .step 0, .step 0, .step 0]

theorem sets_converge_race :
    Converged tiny .small k3 (Called k3 setsAndSet) (after tiny (.init 0) setsAndSet).shared := by
  refine sets_converge (by decide) (by decide) (deleteInv_start tiny k3 0).inPlace
    (fun i j hi => ?_) (fun t c hc hck => ?_) (by decide) ?_ (by decide)
  · simp [HasAt, Entry.matches, Mem.init, Entry.zeroed] at hi
  · simp only [setsAndSet, mem_cons, not_mem_nil, or_false, reduceCtorEq,
      Event.call.injEq, false_or] at hc
    rcases hc with ⟨-, rfl⟩ | ⟨-, rfl⟩ | ⟨-, rfl⟩
    · exact ⟨_, _, rfl, by decide, by decide⟩
    · exact absurd hck (by decide)
    · exact ⟨_, _, rfl, by decide, by decide⟩
  · have hcheck : Run.Along (exec (code tiny) tick) (fun P e =>
        (firstFree tiny .small k3 P.shared).isSome ∧ ∀ c ∈ stepOf P e, c.key ≠ k3 →
          (∃ i ∈ tiny.window .small (tiny.hash k3), HasAt tiny .small k3 P.shared i) ∨
            firstFree tiny .small k3 (P.exec (code tiny) tick e).shared =
              firstFree tiny .small k3 P.shared) (start (.init 0)) setsAndSet := by
      decide
    exact hcheck.mono fun P e h => setsCalm_of_free h.1 h.2

end Askr.Kv
