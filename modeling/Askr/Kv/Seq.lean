import Askr.Kv.Region

/-!
# One value for a key

The public functions, one call after the other, with the clock moving on in between. Each region
stays sound (`soundBoth_step`), so a key has one slot in each region, and a lookup gets to it. That
a key is not live in both regions at once is kept by every function but `increment`, which does not
look at the large region (`Apart.step`, `increment_splits_key`). What was set is what is read,
whatever calls on other keys do short of evicting it (`one_value_per_key`).
-/

namespace Askr.Kv

open Conc Prog Probe Run

/-- One step of a sequential run. -/
inductive Op where
  | call (c : Call)
  | tick (d : Nat)

/-- What a step does: a call runs to its end. -/
def seqStep (g : Config) (s : Mem) : Op → Mem
  | .call c => ((code g c).run s).1
  | .tick d => tick d s

/-- The key is live in the region. -/
def Live (g : Config) (r : Region) (key : Bytes) (s : Mem) : Prop :=
  ∃ i, HasAt g r key s i ∧ (s.entry r i).expired s.nowSecs = false

/-- No key is live in both regions. -/
def Apart (g : Config) (s : Mem) : Prop := ∀ key, ¬ (Live g .small key s ∧ Live g .large key s)

def SoundBoth (g : Config) (s : Mem) : Prop := ∀ r, Sound g r s

variable {g : Config} {r : Region} {key k : Bytes} {s s' : Mem}

/-! ## Regions by themselves -/

theorem Sound.congr (hs : Sound g r s) (he : s'.entry r = s.entry r) : Sound g r s' := by
  refine ⟨fun i hi => ?_, fun key i hi => ?_, fun key i j hi hj => ?_⟩
  · simpa [HasAt, he] using hs.own i (he ▸ hi)
  · have hi' : HasAt g r key s i := by simpa [HasAt, he] using hi
    simpa [Place, he] using hs.place key i hi'
  · exact hs.unique key i j (by simpa [HasAt, he] using hi) (by simpa [HasAt, he] using hj)

theorem At.congr {o : Option Nat} (ho : At g r key s o) (he : s'.entry r = s.entry r) :
    At g r key s' o := by
  cases o with
  | none => exact fun i hi => ho i (by simpa [HasAt, he] using hi)
  | some i => simpa [At, HasAt, he] using ho

theorem not_live_of_at (ho : At g r key s none) : ¬ Live g r key s := fun ⟨i, hi, _⟩ => ho i hi

theorem Live.congr (he : s'.entry r = s.entry r) (hnow : s'.nowMs = s.nowMs) :
    Live g r key s' ↔ Live g r key s := by
  simp only [Live, HasAt, he, Mem.nowSecs, hnow]

/-- The region `r` has been worked on: both regions are still sound, and the other one is as it
was. -/
structure Stays (g : Config) (r : Region) (s s' : Mem) : Prop where
  sound : SoundBoth g s'
  clock : s'.nowMs = s.nowMs
  other : ∀ r', r' ≠ r → s'.entry r' = s.entry r'

theorem Stays.refl (hs : SoundBoth g s) (r : Region) : Stays g r s s := ⟨hs, rfl, fun _ _ => rfl⟩

theorem Stays.put (hs : SoundBoth g s) {i : Nat} {e : Entry} (hr : Sound g r (s.put r i e)) :
    Stays g r s (s.put r i e) := by
  have hother : ∀ r', r' ≠ r → (s.put r i e).entry r' = s.entry r' :=
    fun _ h => s.put_region r i e h
  refine ⟨fun r' => ?_, rfl, hother⟩
  by_cases hrr : r' = r
  · exact hrr ▸ hr
  · exact (hs r').congr (hother r' hrr)

theorem Stays.write (hs : SoundBoth g s) {o : Option Nat} (ho : At g r key s o)
    (hlen : key.length ≤ KEY_MAX) (hslots : g.slots r ≠ 0) {t : Nat}
    (ht : o = some t ∨ (o = none ∧ Place g r key s t)) (val : Bytes) (expires : Nat) :
    Stays g r s (s.write r t key val (g.hash key) expires) :=
  .put hs ((hs r).write_at ho hlen hslots ht val expires)

theorem Stays.live_other (h : Stays g r s s') {r' : Region} (hr : r' ≠ r) :
    Live g r' key s' ↔ Live g r' key s := Live.congr (h.other r' hr) h.clock

/-! ## What the functions of a region leave -/

theorem Sound.at_bury (hs : Sound g r s) {i : Nat} (hi : HasAt g r key s i) :
    At g r key (s.bury r i) none := by
  intro j hj
  by_cases hji : j = i
  · subst hji
    simp [HasAt, Mem.bury, Entry.matches] at hj
  · exact hji (hs.unique key j i (by simpa [HasAt, Mem.bury, hji] using hj) hi)

theorem delete_leaves (hs : SoundBoth g s) (r : Region) (key : Bytes) :
    Stays g r s ((r.delete g key (g.hash key)).run s).1 ∧
      At g r key ((r.delete g key (g.hash key)).run s).1 none := by
  obtain ⟨o, ho⟩ := exists_at g r key s
  rw [Region.delete_run (hs r) ho]
  cases o with
  | none => exact ⟨.refl hs r, ho⟩
  | some i => exact ⟨.put hs ((hs r).bury i), (hs r).at_bury ho⟩

/-- A lookup that finds nothing leaves the region without the key; one that finds the key changes
nothing. -/
theorem get_leaves (hs : SoundBoth g s) (r : Region) (key : Bytes) :
    Stays g r s ((r.get g key (g.hash key)).run s).1 ∧
      (((r.get g key (g.hash key)).run s).2 = none →
        At g r key ((r.get g key (g.hash key)).run s).1 none) ∧
      (((r.get g key (g.hash key)).run s).2 ≠ none → ((r.get g key (g.hash key)).run s).1 = s) := by
  obtain ⟨o, ho⟩ := exists_at g r key s
  rw [Region.get_run (hs r) ho]
  cases o with
  | none => exact ⟨.refl hs r, fun _ => ho, fun _ => rfl⟩
  | some i =>
    simp only [Option.elim_some]
    split
    · exact ⟨.put hs ((hs r).bury i), fun _ => (hs r).at_bury ho, fun h => absurd rfl h⟩
    · exact ⟨.refl hs r, fun h => (by cases h), fun _ => rfl⟩

theorem touch_leaves (hs : SoundBoth g s) (r : Region) (key : Bytes) (ttl : Nat) :
    Stays g r s ((r.touch g key (g.hash key) ttl).run s).1 ∧
      (((r.touch g key (g.hash key) ttl).run s).2 = false →
        At g r key ((r.touch g key (g.hash key) ttl).run s).1 none) ∧
      (((r.touch g key (g.hash key) ttl).run s).2 = true → Live g r key s) := by
  obtain ⟨o, ho⟩ := exists_at g r key s
  rw [Region.touch_run (hs r) ho]
  cases o with
  | none => exact ⟨.refl hs r, fun _ => ho, fun h => (by cases h)⟩
  | some i =>
    simp only [Option.elim_some]
    split
    · exact ⟨.put hs ((hs r).bury i), fun _ => (hs r).at_bury ho, fun h => (by cases h)⟩
    · rename_i hexp
      exact ⟨.put hs ((hs r).markExpires i _), fun h => (by cases h),
        fun _ => ⟨i, ho, Bool.eq_false_iff.2 hexp⟩⟩

theorem set_leaves (hs : SoundBoth g s) (r : Region) (hlen : key.length ≤ KEY_MAX) (val : Bytes)
    (ttl : Nat) : Stays g r s ((r.set g key val (g.hash key) ttl).run s).1 := by
  by_cases hslots : g.slots r = 0
  · simpa [Region.set, hslots] using Stays.refl hs r
  by_cases hval : val.length > r.valMax
  · simpa [Region.set, hslots, hval] using Stays.refl hs r
  obtain ⟨o, ho⟩ := exists_at g r key s
  obtain ⟨t, ht, hrun⟩ := Region.set_run (hs r) ho hslots (Nat.not_lt.1 hval) ttl
  rw [hrun]
  exact .write hs ho hlen hslots ht _ _

theorem add_leaves (hs : SoundBoth g s) (r : Region) (hlen : key.length ≤ KEY_MAX) (val : Bytes)
    (ttl : Nat) : Stays g r s ((r.add g key val (g.hash key) ttl).run s).1 := by
  by_cases hslots : g.slots r = 0
  · simpa [Region.add, hslots] using Stays.refl hs r
  by_cases hval : val.length > r.valMax
  · simpa [Region.add, hslots, hval] using Stays.refl hs r
  obtain ⟨o, ho⟩ := exists_at g r key s
  rcases Region.add_run (hs r) ho hslots (Nat.not_lt.1 hval) ttl with ⟨t, ht, hrun⟩ | hrun
  · rw [hrun]
    exact .write hs ho hlen hslots (ht.imp_left And.left) _ _
  · rw [hrun]
    exact .refl hs r

theorem increment_leaves (hs : SoundBoth g s) (r : Region) (hlen : key.length ≤ KEY_MAX)
    (delta : Int) (ttl : Nat) :
    Stays g r s ((r.increment g key (g.hash key) delta ttl).run s).1 := by
  obtain ⟨o, ho⟩ := exists_at g r key s
  rcases Region.increment_run (hs r) ho delta ttl with ⟨t, val, expires, hslots, ht, hrun⟩ | hrun
  · rw [hrun]
    exact .write hs ho hlen hslots ht _ _
  · rw [hrun]
    exact .refl hs r

/-! ## A call -/

/-- What a call on the key leaves: both regions sound, and the key not live in both unless it was
before. -/
def Leaves (g : Config) (key : Bytes) (s s' : Mem) : Prop :=
  SoundBoth g s' ∧
    (¬ (Live g .small key s ∧ Live g .large key s) →
      ¬ (Live g .small key s' ∧ Live g .large key s'))

theorem Leaves.refl (hs : SoundBoth g s) (key : Bytes) : Leaves g key s s := ⟨hs, id⟩

theorem Stays.leaves {s₀ : Mem} (h : Stays g r s s') {r' : Region} (hr : r' ≠ r)
    (ho : At g r' key s none) : Leaves g key s₀ s' := by
  have hno : ¬ Live g r' key s' := fun hl => not_live_of_at ho ((h.live_other hr).1 hl)
  refine ⟨h.sound, fun _ hboth => hno ?_⟩
  cases r'
  exacts [hboth.1, hboth.2]

theorem get_call (hs : SoundBoth g s) (key : Bytes) : Leaves g key s ((get g key).run s).1 := by
  rw [get]
  split
  · exact .refl hs key
  rw [run_bind]
  obtain ⟨hstay, hnone, hsome⟩ := get_leaves hs .small key
  generalize (Region.small.get g key (g.hash key)).run s = p at hstay hnone hsome
  obtain ⟨s₁, v⟩ := p
  cases v with
  | some v => exact (hsome (by simp) : s₁ = s) ▸ .refl hs key
  | none => exact (get_leaves hstay.sound .large key).1.leaves (by decide) (hnone rfl)

theorem set_call (hs : SoundBoth g s) (key val : Bytes) (ttl : Nat) :
    Leaves g key s ((set g key val ttl).run s).1 := by
  rw [set]
  split
  · exact .refl hs key
  rename_i hlen
  split
  · obtain ⟨hstay, ho⟩ := delete_leaves hs .large key
    rw [run_bind]
    exact (set_leaves hstay.sound .small (Nat.not_lt.1 hlen) val ttl).leaves (by decide) ho
  · split
    · obtain ⟨hstay, ho⟩ := delete_leaves hs .small key
      rw [run_bind]
      exact (set_leaves hstay.sound .large (Nat.not_lt.1 hlen) val ttl).leaves (by decide) ho
    · exact .refl hs key

theorem add_call (hs : SoundBoth g s) (key val : Bytes) (ttl : Nat) :
    Leaves g key s ((add g key val ttl).run s).1 := by
  rw [add]
  split
  · exact .refl hs key
  rename_i hlen
  rw [run_bind]
  obtain ⟨hstay, hnone, hsome⟩ := get_leaves hs .large key
  generalize (Region.large.get g key (g.hash key)).run s = p at hstay hnone hsome
  obtain ⟨s₁, v⟩ := p
  cases v with
  | some v => exact (hsome (by simp) : s₁ = s) ▸ .refl hs key
  | none =>
    exact (add_leaves hstay.sound .small (Nat.not_lt.1 fun h => hlen (.inl h)) val ttl).leaves
      (by decide) (hnone rfl)

theorem delete_call (hs : SoundBoth g s) (key : Bytes) :
    Leaves g key s ((delete g key).run s).1 := by
  obtain ⟨hstay, ho⟩ := delete_leaves hs .small key
  rw [delete, run_bind, run_map]
  exact (delete_leaves hstay.sound .large key).1.leaves (by decide) ho

theorem touch_call (hs : SoundBoth g s) (key : Bytes) (ttl : Nat) :
    Leaves g key s ((touch g key ttl).run s).1 := by
  rw [touch]
  split
  · exact .refl hs key
  rw [run_bind]
  obtain ⟨hstay, hfalse, htrue⟩ := touch_leaves hs .small key ttl
  generalize (Region.small.touch g key (g.hash key) ttl).run s = p at hstay hfalse htrue
  obtain ⟨s₁, b⟩ := p
  cases b with
  | true =>
    exact ⟨hstay.sound, fun hapart hboth =>
      hapart ⟨htrue rfl, (hstay.live_other (by decide)).1 hboth.2⟩⟩
  | false => exact (touch_leaves hstay.sound .large key ttl).1.leaves (by decide) (hfalse rfl)

theorem increment_call (hs : SoundBoth g s) (key : Bytes) (delta : Int) (ttl : Nat) :
    SoundBoth g ((increment g key delta ttl).run s).1 ∧
      (Live g .large key ((increment g key delta ttl).run s).1 → Live g .large key s) := by
  rw [increment]
  split
  · exact ⟨hs, id⟩
  · rename_i hlen
    have hstay := increment_leaves hs .small (Nat.not_lt.1 hlen) delta ttl
    exact ⟨hstay.sound, (hstay.live_other (by decide)).1⟩

/-! ## Other keys -/

/-- The clock stands, and where `k` is now it was before, in the same entry. -/
structure Keep (g : Config) (k : Bytes) (s s' : Mem) : Prop where
  clock : s'.nowMs = s.nowMs
  slot : ∀ r i, HasAt g r k s' i → s'.entry r i = s.entry r i

theorem Keep.refl (g : Config) (k : Bytes) (s : Mem) : Keep g k s s := ⟨rfl, fun _ _ _ => rfl⟩

theorem Keep.trans {s'' : Mem} (h : Keep g k s s') (h' : Keep g k s' s'') : Keep g k s s'' := by
  refine ⟨h'.clock.trans h.clock, fun r i hi => ?_⟩
  have heq := h'.slot r i hi
  exact heq.trans (h.slot r i (by rw [HasAt, heq] at hi; exact hi))

theorem code_keep (g : Config) {c : Call} (hk : c.key ≠ k) (s : Mem) :
    Keep g k s ((code g c).run s).1 := by
  refine Guar.run (Keep.refl g k) Keep.trans ((code_effect g c).mono fun s s' he => ?_) s
  refine ⟨he.clock, fun r i hi => ?_⟩
  have hbefore := (he.slot r i).matches_of_ne hk hi
  rcases (he.slot r i).of_matches hk hbefore with heq | ⟨-, hnot⟩
  · exact heq
  · rw [HasAt, hnot] at hi
    cases hi

theorem Keep.live (h : Keep g k s s') (hl : Live g r k s') : Live g r k s := by
  obtain ⟨i, hi, hexp⟩ := hl
  have heq := h.slot r i hi
  rw [HasAt, heq] at hi
  rw [heq, Mem.nowSecs, h.clock] at hexp
  exact ⟨i, hi, hexp⟩

theorem live_of_tick {d : Nat} (hl : Live g r k (tick d s)) : Live g r k s := by
  obtain ⟨i, hi, hexp⟩ := hl
  exact ⟨i, hi, Entry.expired_mono (Nat.div_le_div_right (Nat.le_add_right _ d)) hexp⟩

/-! ## Steps -/

/-- The step does not increment a key that is live in the large region. -/
def NoSplit (g : Config) (s : Mem) : Op → Prop
  | .call c => ∀ delta ttl, c.req = .increment delta ttl → ¬ Live g .large c.key s
  | .tick _ => True

/-- **One call**: both regions stay sound, and if it does not split its key, that is not live in
both unless it was before. -/
theorem call_leaves (hs : SoundBoth g s) (c : Call) : SoundBoth g ((code g c).run s).1 ∧
    (NoSplit g s (.call c) → Leaves g c.key s ((code g c).run s).1) := by
  have hleaves : ∀ {s'}, Leaves g c.key s s' →
      SoundBoth g s' ∧ (NoSplit g s (.call c) → Leaves g c.key s s') := fun h => ⟨h.1, fun _ => h⟩
  cases hreq : c.req <;> simp only [code, hreq, run_map]
  case get => exact hleaves (get_call hs _)
  case set val ttl => exact hleaves (set_call hs _ val ttl)
  case add val ttl => exact hleaves (add_call hs _ val ttl)
  case delete => exact hleaves (delete_call hs _)
  case touch ttl => exact hleaves (touch_call hs _ ttl)
  case increment delta ttl =>
    obtain ⟨hsound, hlive⟩ := increment_call hs c.key delta ttl
    exact ⟨hsound, fun hc => ⟨hsound, fun _ h => hc delta ttl hreq (hlive h.2)⟩⟩

/-- An operation keeps both regions sound. -/
theorem soundBoth_step (hs : SoundBoth g s) (op : Op) : SoundBoth g (seqStep g s op) := by
  cases op with
  | tick d => exact fun r => (hs r).congr rfl
  | call c => exact (call_leaves hs c).1

/-- **The regions stay apart.** -/
theorem Apart.step (hs : SoundBoth g s) (hapart : Apart g s) {op : Op} (hop : NoSplit g s op) :
    Apart g (seqStep g s op) := by
  intro k hboth
  cases op with
  | tick d => exact hapart k ⟨live_of_tick hboth.1, live_of_tick hboth.2⟩
  | call c =>
    by_cases hk : c.key = k
    · subst hk
      exact ((call_leaves hs c).2 hop).2 (hapart _) hboth
    · have hkeep := code_keep g hk s
      exact hapart k ⟨hkeep.live hboth.1, hkeep.live hboth.2⟩

/-! ## What was set is what is read -/

/-- The key has one entry, in one of the regions, with this value and deadline. -/
structure Kept (g : Config) (k val : Bytes) (expires : Nat) (s : Mem) : Prop where
  sound : SoundBoth g s
  entry : ∃ r i, HasAt g r k s i ∧ (s.entry r i).val = val ∧ (s.entry r i).expiresAt = expires ∧
    ∀ r', r' ≠ r → At g r' k s none

/-- The step is not about the key, and does not evict it. -/
def Spares (g : Config) (k : Bytes) (s : Mem) (op : Op) : Prop :=
  (∀ c, op = .call c → c.key ≠ k) ∧ ∀ r i, HasAt g r k s i → HasAt g r k (seqStep g s op) i

variable {val : Bytes} {expires : Nat}

/-- An operation that spares the entry keeps it. -/
theorem Kept.step (h : Kept g k val expires s) {op : Op} (hop : Spares g k s op) :
    Kept g k val expires (seqStep g s op) := by
  refine ⟨soundBoth_step h.sound op, ?_⟩
  obtain ⟨r, i, hi, hval, hexp, hother⟩ := h.entry
  have heq : ∀ r j, HasAt g r k (seqStep g s op) j →
      (seqStep g s op).entry r j = s.entry r j := by
    cases op with
    | tick d => exact fun _ _ _ => rfl
    | call c => exact (code_keep g (hop.1 c rfl) s).slot
  have hi' := hop.2 r i hi
  refine ⟨r, i, hi', by rw [heq r i hi', hval], by rw [heq r i hi', hexp], fun r' hr j hj => ?_⟩
  have hj' := hj
  rw [HasAt, heq r' j hj] at hj'
  exact hother r' hr j hj'

theorem kept_set {s₁ : Mem} (hs : SoundBoth g s₁) (hclock : s₁.nowMs = s.nowMs)
    (hlen : k.length ≤ KEY_MAX) (hval : val.length ≤ r.valMax) {ttl : Nat}
    (hother : ∀ r', r' ≠ r → At g r' k s₁ none)
    (htrue : ((r.set g k val (g.hash k) ttl).run s₁).2 = true) :
    Kept g k val (deadline s.nowSecs ttl) ((r.set g k val (g.hash k) ttl).run s₁).1 := by
  have hslots : g.slots r ≠ 0 := by
    intro h
    simp [Region.set, h] at htrue
  obtain ⟨o, ho⟩ := exists_at g r k s₁
  obtain ⟨t, ht, hrun⟩ := Region.set_run (hs r) ho hslots hval ttl
  have hstay := Stays.write hs ho hlen hslots ht val (deadline s₁.nowSecs ttl)
  rw [hrun]
  refine ⟨hstay.sound, r, t, ?_, ?_, ?_, fun r' hr => (hother r' hr).congr (hstay.other r' hr)⟩
  · simp [HasAt, Mem.write, Entry.matches, hlen]
  · simp [Mem.write]
  · simp [Mem.write, Mem.nowSecs, hclock]

theorem set_kept (hs : SoundBoth g s) {ttl : Nat} (htrue : ((set g k val ttl).run s).2 = true) :
    Kept g k val (deadline s.nowSecs ttl) ((set g k val ttl).run s).1 := by
  rw [set] at htrue ⊢
  split at htrue
  · cases htrue
  rename_i hlen
  have hlen' := Nat.not_lt.1 hlen
  rw [if_neg hlen]
  split at htrue
  · rename_i hval
    obtain ⟨hstay, ho⟩ := delete_leaves hs .large k
    rw [run_bind] at htrue
    rw [if_pos hval, run_bind]
    exact kept_set hstay.sound hstay.clock hlen' hval (fun r' hr => by cases r' <;> trivial) htrue
  · rename_i hsmall
    split at htrue
    · rename_i hval
      obtain ⟨hstay, ho⟩ := delete_leaves hs .small k
      rw [run_bind] at htrue
      rw [if_neg hsmall, if_pos hval, run_bind]
      exact kept_set hstay.sound hstay.clock hlen' hval (fun r' hr => by cases r' <;> trivial) htrue
    · cases htrue

/-- `get` finds the one entry of the key. -/
theorem Kept.get_run (h : Kept g k val expires s) (hlive : expires = 0 ∨ s.nowSecs ≤ expires) :
    ((get g k).run s).2 = some val := by
  obtain ⟨r, i, hi, hval, hexp, hother⟩ := h.entry
  have hunexp : (s.entry r i).expired s.nowSecs = false := by
    simp only [Entry.expired, hexp, Bool.and_eq_false_iff, decide_eq_false_iff_not]
    omega
  have hrun : (r.get g k (g.hash k)).run s = (s, some val) := by
    rw [Region.get_run (h.sound r) (o := some i) hi]
    simp [hunexp, hval]
  rw [get, if_neg (Nat.not_lt.2 hi.length_le), run_bind]
  cases r with
  | small => rw [hrun]; rfl
  | large =>
    rw [Region.get_run (h.sound .small) (hother .small (by decide))]
    exact congrArg Prod.snd hrun

/-! ## Whole runs -/

/-- The table after the steps, from freshly mapped regions. -/
abbrev ran (g : Config) (now : Nat) (ops : List Op) : Mem := Run.runs (seqStep g) (.init now) ops

theorem soundBoth_ran (g : Config) (now : Nat) (ops : List Op) : SoundBoth g (ran g now ops) :=
  runs_inv (I := SoundBoth g) (fun _ op hs => soundBoth_step hs op) ops
    fun r => sound_init g r now

theorem apart_init (g : Config) (now : Nat) : Apart g (.init now) := by
  rintro key ⟨⟨i, hi, -⟩, -⟩
  simp [HasAt, Entry.matches, Mem.init, Entry.zeroed] at hi

/-- **One value for a key.** In every sequential run: as long as no key is incremented while it is
live in the large region, no key is live in both regions; a key has one slot at most in each region,
and no empty slot is in front of it; and a value that was set is read back, after any calls on other
keys that do not evict it, until its deadline. -/
theorem one_value_per_key (g : Config) (now : Nat) (ops : List Op) :
    (Run.Along (seqStep g) (NoSplit g) (.init now) ops → Apart g (ran g now ops)) ∧
    (∀ r key i, HasAt g r key (ran g now ops) i →
      Place g r key (ran g now ops) i ∧ ∀ j, HasAt g r key (ran g now ops) j → j = i) ∧
    ∀ app name val ttl ops',
      ((code g ⟨app, name, .set val ttl⟩).run (ran g now ops)).2 = .flag true →
      Run.Along (seqStep g) (Spares g (Ns.key app name))
        (ran g now (ops ++ [.call ⟨app, name, .set val ttl⟩])) ops' →
      (deadline (ran g now ops).nowSecs ttl = 0 ∨
        (ran g now (ops ++ .call ⟨app, name, .set val ttl⟩ :: ops')).nowSecs
          ≤ deadline (ran g now ops).nowSecs ttl) → ((code g ⟨app, name, .get⟩).run
        (ran g now (ops ++ .call ⟨app, name, .set val ttl⟩ :: ops'))).2 = .value (some val) := by
  have hsound := soundBoth_ran g now ops
  refine ⟨fun hops => ?_, fun r key i hi => ?_, fun app name val ttl ops' htrue hspares hlive => ?_⟩
  · have hstep : ∀ s op, NoSplit g s op → SoundBoth g s ∧ Apart g s →
        SoundBoth g (seqStep g s op) ∧ Apart g (seqStep g s op) :=
      fun s op hop hs => ⟨soundBoth_step hs.1 op, hs.2.step hs.1 hop⟩
    exact (hops.inv hstep ⟨fun r => sound_init g r now, apart_init g now⟩).2
  · exact ⟨((hsound r).place key i hi).2, fun j hj => (hsound r).unique key j i hj hi⟩
  · simp only [ran, runs_append, runs_cons, runs_nil] at hlive hspares ⊢
    simp only [code, run_map, Res.flag.injEq] at htrue
    have hset := set_kept hsound htrue
    have hend := Along.inv (fun _ _ hop h => Kept.step h hop) hspares
      (by simpa only [seqStep, code, run_map, Call.key] using hset)
    simpa only [code, run_map, Res.value.injEq, Call.key] using hend.get_run hlive

/-- Sixteen slots in each region. -/
def both : Config := .init Ns.bytesHash 16 16

theorem SoundBoth.not_live (hs : SoundBoth g s)
    (hno : ∀ i ∈ g.window r (g.hash k), ¬ HasAt g r k s i) : ¬ Live g r k s :=
  fun ⟨i, hi, _⟩ => hno i ((hs r).place k i hi).2.1 hi

/-- A large value, a small value over it, and an increment of that. -/
def shrunk : List Op :=
  [.call (callOn "k2" (.set (List.replicate 4097 48) 0)), .call (callOn "k2" (.set [53] 0)),
    .call (callOn "k2" (.increment 2 0))]

theorem one_value_per_key_shrunk : Apart both (ran both 0 shrunk) ∧
      ((code both (callOn "k2" .get)).run (ran both 0
          (shrunk ++ .call (callOn "k2" (.set [56] 0)) :: [.call (callOn "k3" .delete)]))).2
          = .value (some [56]) := by
  obtain ⟨hapart, -, hget⟩ := one_value_per_key both 0 shrunk
  refine ⟨hapart ⟨fun _ _ h => (by cases h), fun _ _ h => (by cases h), fun _ _ _ => ?_, trivial⟩,
    hget none _ [56] 0 _ (by decide +kernel) ⟨⟨?_, ?_⟩, trivial⟩ (.inl rfl)⟩
  · exact (soundBoth_ran both 0 (shrunk.take 2)).not_live (by decide +kernel)
  · rintro c ⟨⟩
    decide
  · intro r i hi
    have hmem := ((soundBoth_ran both 0 _ r).place _ i hi).2.1
    revert hi
    revert hmem
    revert i
    cases r <;> decide +kernel

/-- No run has a key that is live in both regions. -/
def NeverSplit (g : Config) : Prop := ∀ now ops, Apart g (ran g now ops)

/-- A large value is set under the key, and then the key is incremented. -/
theorem increment_splits_key : ¬ NeverSplit both := by
  intro h
  refine h 0 [.call (callOn "k2" (.set (List.replicate 4097 48) 0)),
    .call (callOn "k2" (.increment 1 0))] (Ns.key none (Bytes.ofString "k2"))
    ⟨⟨14, ?_, ?_⟩, ⟨14, ?_, ?_⟩⟩ <;> decide +kernel

end Askr.Kv
