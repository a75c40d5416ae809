import Askr.Kv.Route

/-!
# Room for two keys

Two `set`s of different keys run at once, and the window of each key has a slot to spare. Alone, a
`set` goes to the slot of its key, or else to the first free slot of its window, or else to the
first expired one (`spot`). It remembers that slot and gives up its lock; the write does not look at
what is there by then. So when the two have one spot, the last to write takes it from the other
(`set_lost`).

With two spots neither is disturbed: what a `set` sees besides its own slot is what was there, or a
live entry of the other key (`View`), and that does not change where it goes (`Seen.see`,
`undisturbed_iff`).
-/

namespace Askr.Kv

open Conc Prog Probe List Option Pool Bytes

/-- Where a `set` of the key goes alone: to the slot of the key, else to the first free slot of its
window, else to the first expired entry. There is none when it has to evict. -/
def spot (g : Config) (r : Region) (k : Bytes) (s : Mem) : Option Nat :=
  (((g.window r (g.hash k)).find? fun i => (s.entry r i).matches k (g.hash k)).or
    ((g.window r (g.hash k)).find? fun i => (s.entry r i).state ≠ .occupied)).or
    ((g.window r (g.hash k)).find? fun i => (s.entry r i).expired s.nowSecs)

/-- A call of `set`. -/
structure Setter where
  app : Option Ns.App
  name : Bytes
  val : Bytes
  ttl : Nat

def Setter.key (x : Setter) : Bytes := Ns.key x.app x.name

def Setter.call (x : Setter) : Call := ⟨x.app, x.name, .set x.val x.ttl⟩

section
variable (g : Config) (r : Region) (s₀ : Mem) (x : Setter) (p : Nat)

/-- The clock has not passed the deadline of an entry in the window of the key. -/
def Steady (k : Bytes) (now : Nat) : Prop :=
  ∀ i ∈ g.window r (g.hash k), (s₀.entry r i).expired now = (s₀.entry r i).expired s₀.nowSecs

/-- A value that was stored at any time since then is still good. -/
def Lasts (ttl now : Nat) : Prop :=
  ∀ t, s₀.nowSecs ≤ t → t ≤ now → deadline t ttl = 0 ∨ now ≤ deadline t ttl

/-- An entry that the `set` has written since then. -/
structure Written (e : Entry) (now : Nat) : Prop where
  has : e.matches x.key (g.hash x.key) = true
  val : e.val = x.val
  deadline : ∃ t, s₀.nowSecs ≤ t ∧ t ≤ now ∧ e.expiresAt = deadline t x.ttl

/-- What the `set` sees of the table besides its own slot `p`: what was there, and live entries of
other keys. -/
structure View (s : Mem) : Prop where
  clock : s₀.nowMs ≤ s.nowMs
  steady : Steady g r s₀ x.key s.nowSecs
  lasts : Lasts s₀ x.ttl s.nowSecs
  slots : ∀ i, i ≠ p → s.entry r i = s₀.entry r i ∨
    (s.entry r i).state = .occupied ∧ (s.entry r i).key ≠ x.key ∧
      (s.entry r i).expired s.nowSecs = false

/-- What the `set` relies on: its slot is left alone, and nobody else writes its key. -/
structure SetRely (s s' : Mem) : Prop where
  clock : s.nowMs ≤ s'.nowMs
  view : View g r s₀ x p s'
  own : s'.entry r p = s.entry r p
  fades : Fades g x.key s s'

/-- What it does: it makes tombstones in the other region, and writes its slot. -/
inductive SetActs (s : Mem) : Mem → Prop where
  | same : SetActs s s
  | bury (j : Nat) : SetActs s (s.bury r.other j)
  | write {t : Nat} : s₀.nowSecs ≤ t → t ≤ s.nowSecs →
      SetActs s (s.write r p x.key x.val (g.hash x.key) (deadline t x.ttl))

/-- Its value is in its slot, and the other region does not have the key. -/
structure Stored (s : Mem) : Prop where
  written : Written g s₀ x (s.entry r p) s.nowSecs
  other : ∀ i, ¬ HasAt g r.other x.key s i

end

variable {g : Config} {r : Region} {s₀ s s' : Mem} {x : Setter} {k : Bytes} {p : Nat}

/-! ## The spot -/

/-- The spot of a key: its own slot, or one that its walk gets to while it is in no slot. -/
inductive Spot (g : Config) (r : Region) (k : Bytes) (s : Mem) (p : Nat) : Prop where
  | own : Leads g k r s p → Spot g r k s p
  | free : (∀ i, ¬ HasAt g r k s i) →
      (g.window r (g.hash k)).find? (fun i => (s.entry r i).state ≠ .occupied) = some p →
      Spot g r k s p
  | expired : (∀ i, ¬ HasAt g r k s i) →
      (g.window r (g.hash k)).find? (fun i => (s.entry r i).state ≠ .occupied) = none →
      (g.window r (g.hash k)).find? (fun i => (s.entry r i).expired s.nowSecs) = some p →
      Spot g r k s p

theorem spot_spec (hin : InPlace g k s) (hp : spot g r k s = some p) : Spot g r k s p := by
  rw [spot] at hp
  cases hown : (g.window r (g.hash k)).find? fun i => (s.entry r i).matches k (g.hash k) with
  | some i =>
    rw [hown, some_or, some_or] at hp
    cases hp
    obtain ⟨-, hm, hpre⟩ := find?_eq_some_iff.1 hown
    exact .own ⟨hm, (hin r p hm).2, hpre⟩
  | none =>
    have habs : ∀ i, ¬ HasAt g r k s i := fun i hi =>
      absurd hi (find?_eq_none.1 hown i (hin r i hi).2.1)
    rw [hown, none_or] at hp
    cases hfree : (g.window r (g.hash k)).find? fun i => (s.entry r i).state ≠ .occupied with
    | some i =>
      rw [hfree, some_or] at hp
      cases hp
      exact .free habs hfree
    | none =>
      rw [hfree, none_or] at hp
      exact .expired habs hfree hp

theorem Spot.place (h : Spot g r k s p) : Place g r k s p := by
  cases h with
  | own hl => exact hl.place
  | free habs hfree => exact (place_find? hfree).1
  | expired habs hfree hexp =>
    obtain ⟨hm, -, -⟩ := find?_eq_some_iff.1 hexp
    refine ⟨hm, fun j hj => ?_⟩
    have := find?_eq_none.1 hfree j (mem_of_mem_passed hj)
    simp only [ne_eq, decide_not, Bool.not_eq_true', decide_eq_false_iff_not, not_not] at this
    simp [this]

theorem Spot.first (h : Spot g r k s p) :
    ∀ j ∈ passed (g.window r (g.hash k)) p, ¬ HasAt g r k s j := by
  cases h with
  | own hl => exact hl.first
  | free habs _ => exact fun j _ => habs j
  | expired habs _ _ => exact fun j _ => habs j

section
variable (h : Spot g r k s p) (habs : ∀ i, ¬ HasAt g r k s i)
include h habs

theorem Spot.of_free {j : Nat} (hj : j ∈ g.window r (g.hash k))
    (hfree : (s.entry r j).state ≠ .occupied) :
    (s.entry r p).state ≠ .occupied ∧ (j = p ∨ p ∈ passed (g.window r (g.hash k)) j) := by
  cases h with
  | own hl => exact absurd hl.has (habs p)
  | free _ hfind =>
    exact ⟨(place_find? hfind).2, mem_passed_of_find? hfind hj (by simpa using hfree)⟩
  | expired _ hfind _ => exact absurd (by simpa using hfree) (find?_eq_none.1 hfind j hj)

theorem Spot.of_occupied (hocc : (s.entry r p).state = .occupied) :
    (s.entry r p).expired s.nowSecs = true ∧ ∀ j ∈ g.window r (g.hash k),
      (s.entry r j).expired s.nowSecs = true → j = p ∨ p ∈ passed (g.window r (g.hash k)) j := by
  cases h with
  | own hl => exact absurd hl.has (habs p)
  | free _ hfind => exact absurd hocc (place_find? hfind).2
  | expired _ _ hexp =>
    exact ⟨(find?_eq_some_iff.1 hexp).2.1, fun j hj hj' => mem_passed_of_find? hexp hj hj'⟩

end

/-! ## The loop -/

/-- What the loop has found after the slots `done`, while the key is in no slot. -/
structure Seen (r : Region) (s₀ : Mem) (p : Nat) (done : List Nat) (a : SetAcc) : Prop where
  reuse : a.reuse = if p ∈ done ∧ (s₀.entry r p).state ≠ .occupied then some p else none
  expired : (s₀.entry r p).state = .occupied →
    a.expiredVictim = if p ∈ done then some p else none

theorem seen_start (r : Region) (s₀ : Mem) (p h slots : Nat) :
    Seen r s₀ p [] (.start h slots) := ⟨by simp [SetAcc.start], by simp [SetAcc.start]⟩

theorem View.slot (hv : View g r s₀ x p s) (hown : s.entry r p = s₀.entry r p) (j : Nat) :
    s.entry r j = s₀.entry r j ∨ j ≠ p ∧ (s.entry r j).state = .occupied ∧
      (s.entry r j).key ≠ x.key ∧ (s.entry r j).expired s.nowSecs = false := by
  by_cases hj : j = p
  · subst hj
    exact .inl hown
  · exact (hv.slots j hj).imp_right fun h => ⟨hj, h⟩

theorem View.no_match (habs : ∀ i, ¬ HasAt g r x.key s₀ i) (hv : View g r s₀ x p s) {j : Nat}
    (hj : j ≠ p) : (s.entry r j).matches x.key (g.hash x.key) = false := by
  refine Bool.eq_false_iff.2 fun hm => ?_
  rcases hv.slots j hj with he | ⟨-, hkey, -⟩
  · rw [he] at hm
    exact habs j hm
  · exact hkey (Entry.matches_iff.1 hm).2.2.2

theorem Seen.target {done : List Nat} {a : SetAcc} (ha : Seen r s₀ p done a) (hp : p ∈ done) :
    a.target = p := by
  rw [SetAcc.target, ha.reuse]
  by_cases hocc : (s₀.entry r p).state = .occupied
  · simp [hocc, ha.expired hocc, hp]
  · simp [hocc, hp]

section
variable (hspot : Spot g r x.key s₀ p) (habs : ∀ i, ¬ HasAt g r x.key s₀ i)
include hspot habs

/-- **One more slot.** What the other `set` has written in the meantime makes no difference. -/
theorem Seen.see {done rest : List Nat} {a : SetAcc} {j now : Nat} (ha : Seen r s₀ p done a)
    (hpath : g.window r (g.hash x.key) = done ++ j :: rest) (hv : View g r s₀ x p s)
    (hown : s.entry r p = s₀.entry r p) (hnow : now ≤ s.nowSecs)
    (hsteady : Steady g r s₀ x.key now) :
    Seen r s₀ p (done ++ [j]) (a.see j (s.entry r j) now) := by
  have hj : j ∈ g.window r (g.hash x.key) := by simp [hpath]
  have hdone : ∀ {y}, y ∈ passed (g.window r (g.hash x.key)) j → y ∈ done := fun hy => by
    rw [hpath] at hy
    exact passed_subset hy
  have hslot := hv.slot hown j
  rw [SetAcc.see]
  split
  · rename_i hocc
    refine ⟨?_, fun hp => ?_⟩
    · rw [ha.reuse]
      by_cases hjp : j = p
      · subst hjp
        have : ¬ (s₀.entry r j).state ≠ .occupied := by rwa [← hown, not_not]
        simp [this]
      · simp [Ne.symm hjp]
    · obtain ⟨hpexp, hfirst⟩ := hspot.of_occupied habs hp
      simp only
      rw [ha.expired hp]
      split
      · rename_i hexp
        have hold : (s₀.entry r j).expired s₀.nowSecs = true := by
          rcases hslot with he | ⟨-, -, -, hlive⟩
          · rw [← hsteady j hj, ← he]
            exact hexp
          · cases (Entry.expired_mono hnow hlive).symm.trans hexp
        rcases hfirst j hj hold with rfl | hp'
        · by_cases hm : j ∈ done <;> simp [hm]
        · simp [hdone hp']
      · rename_i hexp
        have hjp : j ≠ p := by
          rintro rfl
          rw [hown, hsteady j hj] at hexp
          exact hexp hpexp
        simp [Ne.symm hjp]
  · rename_i hfree
    have he : s.entry r j = s₀.entry r j := hslot.resolve_right fun h => hfree h.2.1
    rw [he] at hfree
    obtain ⟨hp, hfirst⟩ := hspot.of_free habs hj hfree
    refine ⟨?_, fun hocc => absurd hocc hp⟩
    simp only
    rw [ha.reuse]
    rcases hfirst with rfl | hp'
    · by_cases hm : j ∈ done <;> simp [hm, hp]
    · simp [hdone hp', hp]

theorem Seen.target_end {done rest : List Nat} {a : SetAcc} {j now : Nat} (ha : Seen r s₀ p done a)
    (hpath : g.window r (g.hash x.key) = done ++ j :: rest) (hv : View g r s₀ x p s)
    (hown : s.entry r p = s₀.entry r p) (hnow : now ≤ s.nowSecs)
    (hsteady : Steady g r s₀ x.key now) (hempty : (s.entry r j).state = .empty) :
    (a.see j (s.entry r j) now).target = p := by
  have he : s.entry r j = s₀.entry r j := (hv.slot hown j).resolve_right fun h => by
    simp [hempty] at h
  refine (ha.see hspot habs hpath hv hown hnow hsteady).target ?_
  have hfree : (s₀.entry r j).state ≠ .occupied := by simp [← he, hempty]
  rcases (hspot.of_free habs (by simp [hpath]) hfree).2 with rfl | hp
  · simp
  · rw [hpath] at hp
    exact mem_append_left _ (passed_subset hp)

end

/-! ## One `set` among others -/

/-- Whatever the others do that it relies on, the rest of a `set` returns true and leaves its value
in its slot. -/
def Stores (g : Config) (r : Region) (s₀ : Mem) (x : Setter) (p : Nat) (q : Prog Mem Bool)
    (s : Mem) : Prop :=
  q.Valid (SetRely g r s₀ x p) (SetActs g r s₀ x p) (fun b s => b = true ∧ Stored g r s₀ x p s) s

theorem Written.mono {e : Entry} {now now' : Nat} (h : Written g s₀ x e now) (hle : now ≤ now') :
    Written g s₀ x e now' := by
  obtain ⟨t, h1, h2, h3⟩ := h.deadline
  exact ⟨h.has, h.val, t, h1, Nat.le_trans h2 hle, h3⟩

theorem SetRely.trans {s'' : Mem} (h : SetRely g r s₀ x p s s') (h' : SetRely g r s₀ x p s' s'') :
    SetRely g r s₀ x p s s'' :=
  ⟨Nat.le_trans h.clock h'.clock, h'.view, h'.own.trans h.own, h.fades.trans h'.fades⟩

theorem SetRely.nowSecs (h : SetRely g r s₀ x p s s') : s.nowSecs ≤ s'.nowSecs :=
  Nat.div_le_div_right h.clock

theorem SetRely.absent (h : SetRely g r s₀ x p s s') {r' : Region}
    (hno : ∀ i, ¬ HasAt g r' x.key s i) (i : Nat) : ¬ HasAt g r' x.key s' i :=
  fun hi => hno i (h.fades.had r' i hi)

theorem Stored.rely (h : Stored g r s₀ x p s) (hr : SetRely g r s₀ x p s s') :
    Stored g r s₀ x p s' := by
  refine ⟨?_, hr.absent h.other⟩
  rw [hr.own]
  exact h.written.mono hr.nowSecs

theorem stored_write (hk : x.key.length ≤ KEY_MAX) (hno : ∀ i, ¬ HasAt g r.other x.key s i)
    {t : Nat} (h1 : s₀.nowSecs ≤ t) (h2 : t ≤ s.nowSecs) :
    Stored g r s₀ x p (s.write r p x.key x.val (g.hash x.key) (deadline t x.ttl)) := by
  refine ⟨⟨?_, ?_, t, h1, h2, ?_⟩, fun i hi => hno i ?_⟩
  · simp [Mem.write, Entry.matches, hk]
  · simp [Mem.write]
  · simp [Mem.write]
  · rwa [HasAt, Mem.write, Mem.put_region _ _ _ _ r.other_ne] at hi

theorem tombstoneOthers_stored (habs : ∀ i, ¬ HasAt g r x.key s₀ i) (hs : Stored g r s₀ x p s)
    (w : List Nat) : Stores g r s₀ x p (tombstoneOthers r x.key (g.hash x.key) p w) s := by
  induction w generalizing s with
  | nil => exact ⟨rfl, hs⟩
  | cons j w ih =>
    rw [tombstoneOthers]
    split
    · exact ih hs
    · rename_i hj
      refine valid_atom fun s' hs' => ?_
      have hm := hs'.view.no_match habs hj
      simp only [hm, Bool.false_eq_true, if_false]
      split
      exacts [⟨.same, rfl, hs.rely hs'⟩, ⟨.same, ih (hs.rely hs')⟩]

section
variable (hk : x.key.length ≤ KEY_MAX) (hspot : Spot g r x.key s₀ p) {done rest : List Nat}
  {a : SetAcc} {now : Nat} (h₀ : s₀.nowSecs ≤ now) (hsteady : Steady g r s₀ x.key now)
include hk hspot h₀ hsteady

omit hsteady in
theorem setScan_own (hl : Leads g x.key r s₀ p)
    (hpath : g.window r (g.hash x.key) = done ++ rest) (hdone : p ∉ done)
    (hown : s.entry r p = s₀.entry r p) (hno : ∀ i, ¬ HasAt g r.other x.key s i)
    (hnow : now ≤ s.nowSecs) : Stores g r s₀ x p
      (setScan g r x.key x.val (g.hash x.key) (deadline now x.ttl) now rest a) s := by
  induction rest generalizing done a s with
  | nil =>
    rw [append_nil] at hpath
    exact absurd (hpath ▸ hspot.place.1) hdone
  | cons j rest ih =>
    refine valid_atom fun s' hs' => ?_
    have hown' := hs'.own.trans hown
    have hnow' := Nat.le_trans hnow hs'.nowSecs
    have hno' := hs'.absent hno
    rcases hl.step hpath hdone with rfl | ⟨hdone', hne, hm⟩
    · have hm : (s'.entry r j).matches x.key (g.hash x.key) = true := hown' ▸ hl.has
      simp only [hm, if_true]
      exact ⟨.write h₀ hnow', rfl, stored_write hk hno' h₀ hnow'⟩
    · have hm' : (s'.entry r j).matches x.key (g.hash x.key) = false ∧
          (s'.entry r j).state ≠ .empty := by
        rcases hs'.view.slot hown' j with he | ⟨-, hocc, hkey, -⟩
        · rw [he]
          exact ⟨hm, hne⟩
        · exact ⟨Bool.eq_false_iff.2 fun h => hkey (Entry.matches_iff.1 h).2.2.2, by simp [hocc]⟩
      simp only [hm'.1, hm'.2, Bool.false_eq_true, if_false]
      exact ⟨.same, ih (by simp [hpath]) hdone' hown' hno' hnow'⟩

theorem setScan_spot (habs : ∀ i, ¬ HasAt g r x.key s₀ i)
    (hpath : g.window r (g.hash x.key) = done ++ rest) (ha : Seen r s₀ p done a)
    (hown : s.entry r p = s₀.entry r p) (hno : ∀ i, ¬ HasAt g r.other x.key s i)
    (hnow : now ≤ s.nowSecs) : Stores g r s₀ x p
      (setScan g r x.key x.val (g.hash x.key) (deadline now x.ttl) now rest a) s := by
  have hwrite : ∀ {s : Mem}, (∀ i, ¬ HasAt g r.other x.key s i) → now ≤ s.nowSecs →
      Stores g r s₀ x p (setWrite g r x.key x.val (g.hash x.key) (deadline now x.ttl) p) s := by
    intro s hno hnow
    refine valid_atom fun s' hs' => ⟨.write h₀ (Nat.le_trans hnow hs'.nowSecs), ?_⟩
    exact tombstoneOthers_stored habs (stored_write hk (hs'.absent hno) h₀
      (Nat.le_trans hnow hs'.nowSecs)) _
  induction rest generalizing done a s with
  | nil =>
    rw [append_nil] at hpath
    rw [setScan, ha.target (hpath ▸ hspot.place.1)]
    exact hwrite hno hnow
  | cons j rest ih =>
    refine valid_atom fun s' hs' => ?_
    have hown' := hs'.own.trans hown
    have hnow' := Nat.le_trans hnow hs'.nowSecs
    have hno' := hs'.absent hno
    have hm : (s'.entry r j).matches x.key (g.hash x.key) = false := by
      by_cases hj : j = p
      · subst hj
        rw [hown']
        exact Bool.eq_false_iff.2 (habs j)
      · exact hs'.view.no_match habs hj
    simp only [hm, Bool.false_eq_true, if_false]
    refine ⟨.same, ?_⟩
    split
    · rename_i hempty
      rw [ha.target_end hspot habs hpath hs'.view hown' hnow' hsteady hempty]
      exact hwrite hno' hnow'
    · exact ih (by simp [hpath]) (ha.see hspot habs hpath hs'.view hown' hnow' hsteady) hown' hno'
        hnow'

end

section
variable (hr : home x.val = r) (hv : x.val.length ≤ VAL_LARGE) (hslots : g.slots r ≠ 0)
  (hk : x.key.length ≤ KEY_MAX) (hspot : Spot g r x.key s₀ p)
include hr hv hslots hk hspot

/-- **One `set` among others** stores its value, as long as they keep to what it relies on. -/
theorem set_stored (hin : InPlace g x.key s₀) :
    Stores g r s₀ x p (set g x.key x.val x.ttl) s₀ := by
  rw [set_eq hk hv, hr]
  refine Valid.bind ?_
  have hdelete : (r.other.delete g x.key (g.hash x.key)).Valid (SetRely g r s₀ x p)
      (fun s s' => s' = s ∨ ∃ j, s' = s.bury r.other j)
      (fun _ s => True ∧ s.entry r p = s₀.entry r p) s₀ := by
    refine ((Region.delete_buries g _ _ _).valid fun _ _ => trivial).frame (fun s s' hs h => ?_)
      (fun s s' hs h => ?_) rfl
    · exact hs.own.trans h
    · rcases hs with rfl | ⟨j, rfl⟩
      · exact h
      · rwa [Mem.bury, Mem.put_region _ _ _ _ r.other_ne.symm]
  refine (((Region.delete_gone hin).weaken (fun _ _ h => h.fades) (fun _ _ h => h)
    fun _ _ h => h).and hdelete).weaken (fun _ _ h => h) (fun s s' h => ?_) fun _ s h => ?_
  · rcases h.2 with rfl | ⟨j, rfl⟩
    exacts [.same, .bury j]
  · obtain ⟨hno, -, hown⟩ := h
    rw [Region.set, if_neg hslots, if_neg (Nat.not_lt.2 (hr ▸ length_le_valMax hv))]
    refine valid_read (fun _ => .same) fun s' hs' => ?_
    have h₀ : s₀.nowSecs ≤ s'.nowSecs := Nat.div_le_div_right hs'.view.clock
    have hown' := hs'.own.trans hown
    have hno' := hs'.absent hno
    by_cases habs : ∀ i, ¬ HasAt g r x.key s₀ i
    · exact setScan_spot hk hspot h₀ hs'.view.steady habs (nil_append _).symm
        (seen_start r s₀ p _ _) hown' hno' (Nat.le_refl _)
    · have hl : Leads g x.key r s₀ p := by
        cases hspot with
        | own hl => exact hl
        | free habs' _ => exact absurd habs' habs
        | expired habs' _ _ => exact absurd habs' habs
      exact setScan_own hk hspot h₀ hl (nil_append _).symm (by simp) hown' hno'
        (Nat.le_refl _)

omit hv hk in
theorem Stored.get (h : Stored g r s₀ x p s) (hview : View g r s₀ x p s) :
    ((get g x.key).run s).2 = some x.val := by
  have hfills : ∀ j ∈ passed (g.window r (g.hash x.key)) p, (s.entry r j).state ≠ .empty ∧
      ¬ HasAt g r x.key s j := by
    intro j hj
    have hjp : j ≠ p := fun he => not_mem_passed (he ▸ hj)
    rcases hview.slots j hjp with he | ⟨hocc, hkey, -⟩
    · rw [HasAt, he]
      exact ⟨hspot.place.2 j hj, hspot.first j hj⟩
    · exact ⟨by simp [hocc], fun hm => hkey (Entry.matches_iff.1 hm).2.2.2⟩
  have hl : Leads g x.key r s p :=
    ⟨h.written.has, ⟨hspot.place.1, fun j hj => (hfills j hj).1⟩, fun j hj => (hfills j hj).2⟩
  have hexp : (s.entry r p).expired s.nowSecs = false := by
    obtain ⟨t, h1, h2, h3⟩ := h.written.deadline
    rw [Entry.expired, h3]
    rcases hview.lasts t h1 h2 with h0 | hle
    · simp [h0]
    · simp [Nat.not_lt.2 hle]
  rw [get_leads hslots (fun hlarge j => ?_) hl hexp, h.written.val]
  subst hlarge
  exact h.other j

end

/-! ## Two of them -/

section
variable (g : Config) (r : Region) (s₀ : Mem) (z : Bool → Setter) (q : Bool → Nat)

/-- In time: no deadline of the two windows has passed, and the new values are good. -/
def InTime (now : Nat) : Prop :=
  ∀ b, Steady g r s₀ (z b).key now ∧ Lasts s₀ (z b).ttl now

/-- The table while the two are under way: every slot is as it was, or has been written by the one
whose spot it is. -/
structure Shared (s : Mem) : Prop where
  clock : s₀.nowMs ≤ s.nowMs
  slots : ∀ i, s.entry r i = s₀.entry r i ∨
    ∃ b, i = q b ∧ Written g s₀ (z b) (s.entry r i) s.nowSecs

/-- The two are under way. -/
structure RoomInv (P : Pool Mem Call Res) : Prop where
  table : Shared g r s₀ z q P.shared
  time : InTime g r s₀ z P.shared.nowSecs
  valid : P.Valid (fun c s s' => ∀ b, c = (z b).call → SetRely g r s₀ (z b) (q b) s s')
    (fun c s s' => ∀ b, c = (z b).call → SetActs g r s₀ (z b) (q b) s s')
    fun c a s => ∀ b, c = (z b).call → a = .flag true ∧ Stored g r s₀ (z b) (q b) s
  tids : ∀ t c p, P.thread t = some (c, p) → ∃ b : Bool, t = b.toNat ∧ c = (z b).call
  done : ∀ d ∈ P.done, ∀ b, d.call = (z b).call → Stored g r s₀ (z b) (q b) P.shared

end

def NoCall (e : Event Call Nat) : Prop := ∀ t c, e ≠ .call t c

/-- The two callers at the start of their calls. -/
def twoCalls (g : Config) (z : Bool → Setter) : Nat → Option (Call × Prog Mem Res)
  | 0 => some ((z false).call, code g (z false).call)
  | 1 => some ((z true).call, code g (z true).call)
  | _ => none

section
variable {z : Bool → Setter} {q : Bool → Nat}

theorem twoCalls_toNat (b : Bool) :
    twoCalls g z b.toNat = some ((z b).call, code g (z b).call) := by cases b <;> rfl

theorem twoCalls_cases {t : Nat} {c : Call} {p : Prog Mem Res} (h : twoCalls g z t = some (c, p)) :
    ∃ b : Bool, t = b.toNat ∧ c = (z b).call ∧ p = code g (z b).call := by
  rcases t with _ | _ | t
  · cases h
    exact ⟨false, rfl, rfl, rfl⟩
  · cases h
    exact ⟨true, rfl, rfl, rfl⟩
  · cases h

theorem SetActs.clock (h : SetActs g r s₀ x p s s') : s'.nowMs = s.nowMs := by cases h <;> rfl

theorem SetActs.entry_ne (h : SetActs g r s₀ x p s s') {i : Nat} (hi : i ≠ p) :
    s'.entry r i = s.entry r i := by
  cases h with
  | same => rfl
  | bury j => rw [Mem.bury, Mem.put_region _ _ _ _ r.other_ne.symm]
  | write h1 h2 => exact s.put_ne r p _ hi

theorem SetActs.fades (h : SetActs g r s₀ x p s s') (hne : x.key ≠ k) : Fades g k s s' := by
  cases h with
  | same => exact .refl g k s
  | bury j => exact .bury s _ j
  | write h1 h2 => exact (CallEffect.write s p _ _).fades hne

theorem Stored.acts (hk : x.key.length ≤ KEY_MAX) (h : Stored g r s₀ x p s)
    (ha : SetActs g r s₀ x p s s') : Stored g r s₀ x p s' := by
  cases ha with
  | same => exact h
  | bury j =>
    refine ⟨?_, fun i hi => h.other i ((Fades.bury s _ j).had _ i hi)⟩
    rw [Mem.bury, Mem.put_region _ _ _ _ r.other_ne.symm]
    exact h.written
  | write h1 h2 => exact stored_write hk h.other h1 h2

theorem Shared.acts (hk : ∀ b, (z b).key.length ≤ KEY_MAX) (h : Shared g r s₀ z q s) {b : Bool}
    (ha : SetActs g r s₀ (z b) (q b) s s') : Shared g r s₀ z q s' := by
  refine ⟨ha.clock ▸ h.clock, fun i => ?_⟩
  have hnow : s'.nowSecs = s.nowSecs := congrArg (· / 1000) ha.clock
  by_cases hi : i = q b
  · cases ha with
    | same => exact h.slots i
    | bury j =>
      rw [Mem.bury, Mem.put_region _ _ _ _ r.other_ne.symm]
      exact h.slots i
    | write h1 h2 =>
      refine .inr ⟨b, hi, ?_⟩
      subst hi
      exact ⟨by simp [Mem.write, Entry.matches, hk b], by simp [Mem.write], _, h1, h2,
        by simp [Mem.write]⟩
  · rw [ha.entry_ne hi, hnow]
    exact h.slots i

theorem Shared.tick (h : Shared g r s₀ z q s) (d : Nat) : Shared g r s₀ z q (tick d s) := by
  refine ⟨Nat.le_trans h.clock (Nat.le_add_right _ _), fun i => (h.slots i).imp_right ?_⟩
  rintro ⟨b, hb, hw⟩
  exact ⟨b, hb, hw.mono (Nat.div_le_div_right (Nat.le_add_right _ _))⟩

theorem Shared.view (h : Shared g r s₀ z q s) (ht : InTime g r s₀ z s.nowSecs)
    (hkey : (z false).key ≠ (z true).key) (b : Bool) : View g r s₀ (z b) (q b) s := by
  refine ⟨h.clock, (ht b).1, (ht b).2, fun i hi => (h.slots i).imp_right ?_⟩
  rintro ⟨b', rfl, hw⟩
  obtain ⟨hocc, -, -, hk⟩ := Entry.matches_iff.1 hw.has
  refine ⟨hocc, ?_, ?_⟩
  · rw [hk]
    cases b <;> cases b'
    exacts [absurd rfl hi, hkey.symm, hkey, absurd rfl hi]
  · obtain ⟨t, h1, h2, h3⟩ := hw.deadline
    rw [Entry.expired, h3]
    rcases (ht b').2 t h1 h2 with h0 | hle
    · simp [h0]
    · simp [Nat.not_lt.2 hle]

theorem eq_of_call (hkey : (z false).key ≠ (z true).key) {b b' : Bool}
    (h : (z b).call = (z b').call) : b = b' := by
  have hk : (z b).key = (z b').key := congrArg Call.key h
  cases b <;> cases b'
  exacts [rfl, absurd hk hkey, absurd hk.symm hkey, rfl]

section
variable (hkey : (z false).key ≠ (z true).key) (hq : q false ≠ q true)
  (hk : ∀ b, (z b).key.length ≤ KEY_MAX)
include hkey hq

theorem Shared.rely {b b' : Bool} (hb : b ≠ b') (h : Shared g r s₀ z q s')
    (ht : InTime g r s₀ z s'.nowSecs) (ha : SetActs g r s₀ (z b') (q b') s s') :
    SetRely g r s₀ (z b) (q b) s s' := by
  have hne : q b ≠ q b' ∧ (z b').key ≠ (z b).key := by
    cases b <;> cases b'
    exacts [absurd rfl hb, ⟨hq, hkey.symm⟩, ⟨hq.symm, hkey⟩, absurd rfl hb]
  exact ⟨Nat.le_of_eq ha.clock.symm, h.view ht hkey b, ha.entry_ne hne.1, ha.fades hne.2⟩

omit hq in
theorem RoomInv.self {P : Pool Mem Call Res} (h : RoomInv g r s₀ z q P) (b : Bool) :
    SetRely g r s₀ (z b) (q b) P.shared P.shared :=
  ⟨Nat.le_refl _, h.table.view h.time hkey b, rfl, .refl _ _ _⟩

omit hq in
/-- What an event does to the table. -/
theorem RoomInv.moves {P : Pool Mem Call Res} (h : RoomInv g r s₀ z q P) (e : Event Call Nat) :
    (P.exec (code g) tick e).shared = P.shared ∨ (∃ b : Bool, e = .step b.toNat ∧
        SetActs g r s₀ (z b) (q b) P.shared (P.exec (code g) tick e).shared) ∨
      ∃ d, e = .env d ∧ (P.exec (code g) tick e).shared = tick d P.shared := by
  rcases h.valid.moves (fun _ _ _ _ b _ => h.self hkey b) (fun _ _ _ => .same) e (code g) tick with
    hm | ⟨t, c, p, hev, hthread, hm⟩ | hm
  · exact .inl hm
  · obtain ⟨b, rfl, rfl⟩ := h.tids t c p hthread
    exact .inr (.inl ⟨b, hev, hm b rfl⟩)
  · exact .inr (.inr hm)

section
variable {P : Pool Mem Call Res} (h : RoomInv g r s₀ z q P) {e : Event Call Nat}
  (ht : InTime g r s₀ z (P.exec (code g) tick e).shared.nowSecs)
include h hk

omit hq in
theorem RoomInv.table_exec : Shared g r s₀ z q (P.exec (code g) tick e).shared := by
  rcases h.moves hkey e with hm | ⟨b, -, hm⟩ | ⟨d, -, hm⟩
  · rw [hm]
    exact h.table
  · exact h.table.acts hk hm
  · rw [hm]
    exact h.table.tick d

include ht

/-- An event that is not about one of the two keeps to what that one relies on. -/
theorem RoomInv.rely {b : Bool} (hne : e ≠ .step b.toNat) :
    SetRely g r s₀ (z b) (q b) P.shared (P.exec (code g) tick e).shared := by
  have htable := h.table_exec hkey hk (e := e)
  rcases h.moves hkey e with hm | ⟨b', hev, hm⟩ | ⟨d, -, hm⟩
  · rw [hm]
    exact h.self hkey b
  · refine htable.rely hkey hq ?_ ht hm
    rintro rfl
    exact hne hev
  · have hview := htable.view ht hkey b
    rw [hm] at hview ⊢
    exact ⟨Nat.le_add_right _ _, hview, rfl, fades_tick _ _ _ _⟩

/-- What is stored stays. -/
theorem RoomInv.stored {b : Bool} (hs : Stored g r s₀ (z b) (q b) P.shared) :
    Stored g r s₀ (z b) (q b) (P.exec (code g) tick e).shared := by
  by_cases hev : e = .step b.toNat
  · rcases h.moves hkey e with hm | ⟨b', hev', hm⟩ | ⟨d, hev', -⟩
    · rwa [hm]
    · have hbb : b' = b := by
        have := Event.step.inj (hev'.symm.trans hev)
        revert this
        cases b <;> cases b' <;> decide
      subst hbb
      exact hs.acts (hk b') hm
    · cases hev.symm.trans hev'
  · exact hs.rely (h.rely hkey hq hk ht hev)

/-- **One event.** -/
theorem RoomInv.exec (he : NoCall e) : RoomInv g r s₀ z q (P.exec (code g) tick e) := by
  have hcall : ∀ t c, e = .call t c → (code g c).Valid
      (fun s s' => ∀ b, c = (z b).call → SetRely g r s₀ (z b) (q b) s s')
      (fun s s' => ∀ b, c = (z b).call → SetActs g r s₀ (z b) (q b) s s')
      (fun a s => ∀ b, c = (z b).call → a = .flag true ∧ Stored g r s₀ (z b) (q b) s)
      P.shared := fun t c hev => absurd hev (he t c)
  refine ⟨h.table_exec hkey hk, ht, ?_, Pool.Calls.exec h.tids fun t c hev => absurd hev (he t c),
    fun d hd b hb => ?_⟩
  · refine h.valid.exec (fun _ _ _ _ b _ => h.self hkey b) (fun _ _ _ => .same) e hcall
      (fun c _ _ _ h1 h2 b hb => (h1 b hb).trans (h2 b hb)) ?_
    rintro t c p hthread hne b rfl
    obtain ⟨b', rfl, hb⟩ := h.tids t _ p hthread
    exact h.rely hkey hq hk ht (eq_of_call hkey hb ▸ hne)
  · refine h.valid.forall_done (fun _ _ _ _ b _ => h.self hkey b) (fun _ _ _ => .same) e hcall
      (fun _ _ h b hb => (h b hb).2) (fun d hd b hb => ?_) d hd b hb
    exact h.stored hkey hq hk ht (h.done d hd b hb)

end

end

section
variable (hr : ∀ b, home (z b).val = r) (hv : ∀ b, (z b).val.length ≤ VAL_LARGE)
  (hslots : g.slots r ≠ 0) (hk : ∀ b, (z b).key.length ≤ KEY_MAX)
include hr hv hslots hk

theorem code_set_ne_ret (b : Bool) (a : Res) : code g (z b).call ≠ .ret a := by
  have hset : (r.set g (z b).key (z b).val (g.hash (z b).key) (z b).ttl) = .read fun s =>
      setScan g r (z b).key (z b).val (g.hash (z b).key) (deadline s.nowSecs (z b).ttl) s.nowSecs
        (g.window r (g.hash (z b).key)) (.start (g.hash (z b).key) (g.slots r)) := by
    rw [Region.set, if_neg hslots, if_neg (Nat.not_lt.2 (hr b ▸ length_le_valMax (hv b)))]
  have hcode : code g (z b).call = (set g (z b).key (z b).val (z b).ttl).map .flag := rfl
  rw [hcode, set_eq (hk b) (hv b), hr b, hset, Region.delete]
  split
  · intro h
    cases h
  · obtain ⟨w, hw⟩ := window_succ 31 (g.slots r.other) (g.hash (z b).key)
    rw [Config.window, PROBE, hw]
    intro h
    cases h

theorem both_called (s₀ : Mem) : after g s₀ [.call 0 (z false).call, .call 1 (z true).call] =
      { shared := s₀, thread := twoCalls g z, done := [] } := by
  have hne := code_set_ne_ret hr hv hslots hk
  have hsettle : ∀ (P : Pool Mem Call Res) t b, P.settle t (z b).call P.shared (code g (z b).call) =
      { P with thread := Function.update P.thread t
                (some ((z b).call, code g (z b).call)) } := by
    intro P t b
    cases hc : code g (z b).call with
    | ret a => exact absurd hc (hne b a)
    | act u n => rfl
  have hcall : ∀ (P : Pool Mem Call Res) t b, P.thread t = none →
      P.exec (code g) tick (.call t (z b).call) =
        { P with thread := Function.update P.thread t
                  (some ((z b).call, code g (z b).call)) } := by
    intro P t b ht
    rw [exec, ht]
    exact hsettle P t b
  rw [after, Run.runs_cons, hcall _ 0 false rfl, Run.runs_cons,
    hcall _ 1 true (by simp [start])]
  simp only [Run.runs_nil, start, mk.injEq, true_and, and_true]
  funext t
  rcases t with _ | _ | t <;> simp [twoCalls]

theorem roomInv_called (hkey : (z false).key ≠ (z true).key)
    (hin : ∀ b, InPlace g (z b).key s₀) (hspot : ∀ b, Spot g r (z b).key s₀ (q b))
    (ht : InTime g r s₀ z s₀.nowSecs) :
    RoomInv g r s₀ z q (after g s₀ [.call 0 (z false).call, .call 1 (z true).call]) := by
  rw [both_called hr hv hslots hk]
  refine ⟨⟨Nat.le_refl _, fun i => .inl rfl⟩, ht, fun t c p h => ?_, fun t c p h => ?_, by simp⟩
  · obtain ⟨b, -, rfl, rfl⟩ := twoCalls_cases h
    refine ⟨code_set_ne_ret hr hv hslots hk b, ?_⟩
    have hset := set_stored (hr b) (hv b) hslots (hk b) (hspot b) (hin b)
    refine Valid.map _ (hset.weaken (fun s s' h => h b rfl) (fun s s' h b' hb => ?_)
      fun a s h b' hb => ?_)
    all_goals obtain rfl := eq_of_call hkey hb
    · exact h
    · exact ⟨congrArg _ h.1, h.2⟩
  · obtain ⟨b, h1, h2, -⟩ := twoCalls_cases h
    exact ⟨b, h1, h2⟩

end

end

/-- **The two `set`s do not disturb each other**: in every interleaving of the two that is in time,
once both have returned true, each value is read under its key. -/
def Undisturbed (g : Config) (r : Region) (s₀ : Mem) (z : Bool → Setter) : Prop :=
  ∀ es : List (Event Call Nat), (∀ e ∈ es, NoCall e) →
    Run.Along (exec (code g) tick)
      (fun P e => InTime g r s₀ z (P.exec (code g) tick e).shared.nowSecs)
      (after g s₀ [.call 0 (z false).call, .call 1 (z true).call]) es →
    (∀ b, ∃ d ∈ (after g s₀ (.call 0 (z false).call :: .call 1 (z true).call :: es)).done,
      d.call = (z b).call ∧ d.res = .flag true) →
    ∀ b, ((get g (z b).key).run
      (after g s₀ (.call 0 (z false).call :: .call 1 (z true).call :: es)).shared).2 =
        some (z b).val

section
variable {z : Bool → Setter} {q : Bool → Nat} (hkey : (z false).key ≠ (z true).key)
  (hr : ∀ b, home (z b).val = r) (hv : ∀ b, (z b).val.length ≤ VAL_LARGE)
  (hslots : g.slots r ≠ 0) (hk : ∀ b, (z b).key.length ≤ KEY_MAX)
  (hin : ∀ b, InPlace g (z b).key s₀) (ht : InTime g r s₀ z s₀.nowSecs)
include hkey hr hv hslots hk hin ht

theorem undisturbed_of_ne (hspot : ∀ b, Spot g r (z b).key s₀ (q b)) (hq : q false ≠ q true) :
    Undisturbed g r s₀ z := by
  intro es hes hrun hret b
  have hinv : RoomInv g r s₀ z q (after g s₀ (.call 0 (z false).call :: .call 1 (z true).call ::
      es)) :=
    (hrun.and_mem hes).inv (I := RoomInv g r s₀ z q)
      (fun P e he h => h.exec hkey hq hk he.1 he.2)
      (roomInv_called hr hv hslots hk hkey hin hspot ht)
  obtain ⟨d, hd, hcall, -⟩ := hret b
  exact (hinv.done d hd b hcall).get (hr b) hslots (hspot b) (hinv.table.view hinv.time hkey b)

end

/-! ## One spot for two -/

theorem Spot.congr (h : Spot g r k s p) (he : s'.entry r = s.entry r) (hnow : s'.nowMs = s.nowMs) :
    Spot g r k s' p := by
  have hsecs : s'.nowSecs = s.nowSecs := congrArg (· / 1000) hnow
  cases h with
  | own hl => exact .own (hl.congr he)
  | free habs hfree => exact .free (by simpa only [HasAt, he] using habs) (by rwa [he])
  | expired habs hfree hexp =>
    exact .expired (by simpa only [HasAt, he] using habs) (by rwa [he]) (by rwa [he, hsecs])

theorem view_of_entry (hlast : Lasts s₀ x.ttl s₀.nowSecs) (hnow : s.nowMs = s₀.nowMs)
    (he : ∀ i, i ≠ p → s.entry r i = s₀.entry r i) : View g r s₀ x p s := by
  have hsecs : s.nowSecs = s₀.nowSecs := congrArg (· / 1000) hnow
  exact ⟨Nat.le_of_eq hnow.symm, fun i _ => by rw [hsecs], hsecs ▸ hlast,
    fun i hi => .inl (he i hi)⟩

theorem setScan_reaches (hspot : Spot g r x.key s p) (habs : ∀ i, ¬ HasAt g r x.key s i)
    (hlast : Lasts s x.ttl s.nowSecs) {F : Mem → Prop} (hF : F s) (expires : Nat)
    {done rest : List Nat} {a : SetAcc} (hpath : g.window r (g.hash x.key) = done ++ rest)
    (ha : Seen r s p done a) :
    Reaches F (setScan g r x.key x.val (g.hash x.key) expires s.nowSecs rest a) s
      (setWrite g r x.key x.val (g.hash x.key) expires p) s := by
  have hview : View g r s x p s := view_of_entry hlast rfl fun _ _ => rfl
  induction rest generalizing done a with
  | nil =>
    rw [append_nil] at hpath
    rw [setScan, ha.target (hpath ▸ hspot.place.1)]
    exact .refl _ _
  | cons j rest ih =>
    have hm : (s.entry r j).matches x.key (g.hash x.key) = false := Bool.eq_false_iff.2 (habs j)
    refine .act (by simpa [hm] using hF) ?_
    simp only [hm, Bool.false_eq_true, if_false]
    split
    · rename_i hempty
      rw [ha.target_end hspot habs hpath hview rfl (Nat.le_refl _) (fun _ _ => rfl) hempty]
      exact .refl _ _
    · exact ih (by simp [hpath])
        (ha.see hspot habs hpath hview rfl (Nat.le_refl _) fun _ _ => rfl)

section
variable (hr : home x.val = r) (hv : x.val.length ≤ VAL_LARGE) (hslots : g.slots r ≠ 0)
  (hk : x.key.length ≤ KEY_MAX) (hin : InPlace g x.key s₀) (hspot : Spot g r x.key s₀ p)
  (hlast : Lasts s₀ x.ttl s₀.nowSecs)
include hr hv hslots hk hin hspot hlast

theorem set_reaches (habs : ∀ i, ¬ HasAt g r x.key s₀ i) {F : Mem → Prop}
    (hF : ∀ s j, F s → F (s.bury r.other j)) (hclock : ∀ s, F s → s.nowMs = s₀.nowMs) (hs : F s₀) :
    ∃ s₁, Reaches F (set g x.key x.val x.ttl) s₀ (setWrite g r x.key x.val (g.hash x.key)
        (deadline s₀.nowSecs x.ttl) p) s₁ ∧ F s₁ ∧ s₁.entry r = s₀.entry r := by
  obtain ⟨b, s₁, hreach, hs₁, -, hsame⟩ := exists_cleared hin r hF hs
  have hsecs : s₁.nowSecs = s₀.nowSecs := congrArg (· / 1000) (hclock s₁ hs₁)
  refine ⟨s₁, ?_, hs₁, hsame⟩
  rw [set_eq hk hv, hr]
  refine (hreach.bind _).trans ?_
  rw [bind_ret, Region.set, if_neg hslots, if_neg (Nat.not_lt.2 (hr ▸ length_le_valMax hv))]
  refine .act hs₁ ?_
  rw [← hsecs]
  exact setScan_reaches (hspot.congr hsame (hclock s₁ hs₁))
    (by simpa only [HasAt, hsame] using habs) (by rwa [Lasts, hsecs]) hs₁ _
    (nil_append _).symm (seen_start r s₁ p _ _)

theorem set_alone :
    ∃ s₁, Reaches (fun s => s.nowMs = s₀.nowMs ∧ ∀ i, i ≠ p → s.entry r i = s₀.entry r i)
        (set g x.key x.val x.ttl) s₀ (.ret true) s₁ ∧ Stored g r s₀ x p s₁ ∧
      s₁.nowMs = s₀.nowMs ∧ ∀ i, i ≠ p → s₁.entry r i = s₀.entry r i := by
  obtain ⟨hreach, ⟨htrue, hstored⟩, hend⟩ := (set_stored hr hv hslots hk hspot hin).reaches
    (F := fun s => s.nowMs = s₀.nowMs ∧ ∀ i, i ≠ p → s.entry r i = s₀.entry r i)
    (fun s hs => ⟨Nat.le_refl _, view_of_entry hlast hs.1 hs.2, rfl, .refl _ _ _⟩)
    (fun s s' ha hs => ⟨ha.clock.trans hs.1, fun i hi => (ha.entry_ne hi).trans (hs.2 i hi)⟩)
    ⟨rfl, fun _ _ => rfl⟩
  rw [htrue] at hreach
  exact ⟨_, hreach, hstored, hend⟩

end

theorem setWrite_reaches (habs : ∀ i, i ≠ p → ¬ HasAt g r x.key s i) (expires : Nat) :
    Reaches (fun s' => s'.nowMs = s.nowMs) (setWrite g r x.key x.val (g.hash x.key) expires p) s
      (.ret true) (s.write r p x.key x.val (g.hash x.key) expires) := by
  have hguar : (setWrite g r x.key x.val (g.hash x.key) expires p).Guar
      (CallEffect x.key (g.hash x.key)) :=
    (setWrite_act (P := fun _ => True) (T := False) g trivial expires p).mono fun _ _ => Act.effect
  have hreach := hguar.reaches (F := fun s' => s'.nowMs = s.nowMs) (s := s)
    (fun _ _ he hs => he.clock.trans hs) rfl
  have hrun : (setWrite g r x.key x.val (g.hash x.key) expires p).run s =
      (s.write r p x.key x.val (g.hash x.key) expires, true) := by
    rw [setWrite, run_atom]
    refine tombstoneOthers_run fun j hj => ?_
    by_contra hjp
    rw [Mem.write, Mem.put_ne _ _ _ _ hjp] at hj
    exact habs j hjp hj
  rwa [hrun] at hreach

section
variable {z : Bool → Setter} (hr : ∀ b, home (z b).val = r)
  (hv : ∀ b, (z b).val.length ≤ VAL_LARGE) (hslots : g.slots r ≠ 0)
  (hk : ∀ b, (z b).key.length ≤ KEY_MAX) (hin : ∀ b, InPlace g (z b).key s₀)
  (ht : InTime g r s₀ z s₀.nowSecs) (hspot : ∀ b, Spot g r (z b).key s₀ p)
include hr hv hslots hk hin ht hspot

/-- The first makes up its mind, the second runs from start to end, and then the first goes on: it
writes the spot, whatever is there by now. -/
theorem overtaken {a b : Bool} (hab : b ≠ a) (habs : ∀ i, ¬ HasAt g r (z a).key s₀ i) :
    ∃ es s₂, (∀ e ∈ es, ∃ u, e = .step u) ∧
      (∀ i, i ≠ p → s₂.entry r i = s₀.entry r i) ∧ (∀ i, ¬ HasAt g r.other (z b).key s₂ i) ∧
      (after g s₀ (.call 0 (z false).call :: .call 1 (z true).call :: es)).shared =
        s₂.write r p (z a).key (z a).val (g.hash (z a).key) (deadline s₀.nowSecs (z a).ttl) ∧
      (after g s₀ (.call 0 (z false).call :: .call 1 (z true).call :: es)).done =
        [⟨a.toNat, (z a).call, .flag true⟩, ⟨b.toNat, (z b).call, .flag true⟩] ∧
      Run.Along (exec (code g) tick)
        (fun P e => (P.exec (code g) tick e).shared.nowMs = s₀.nowMs)
        (after g s₀ [.call 0 (z false).call, .call 1 (z true).call]) es := by
  obtain ⟨s₁, hreach₁, ⟨hclock₁, hfades⟩, hsame⟩ := set_reaches (hr a) (hv a) hslots (hk a) (hin a)
    (hspot a) (ht a).2 habs (F := fun s => s.nowMs = s₀.nowMs ∧ Fades g (z b).key s₀ s)
    (fun s j hs => ⟨hs.1, hs.2.trans (.bury s _ j)⟩) (fun s hs => hs.1) ⟨rfl, .refl _ _ _⟩
  have hsecs : s₁.nowSecs = s₀.nowSecs := congrArg (· / 1000) hclock₁
  obtain ⟨s₂, hreach₂, hstored, hclock₂, hrest⟩ := set_alone (hr b) (hv b) hslots (hk b)
    ((hin b).grows hfades.grows) ((hspot b).congr hsame hclock₁)
    (by rw [Lasts, hsecs]; exact (ht b).2)
  have hentry : ∀ i, i ≠ p → s₂.entry r i = s₀.entry r i := fun i hi => by rw [hrest i hi, hsame]
  have hreach₃ := setWrite_reaches (x := z a)
    (fun i hi => by rw [HasAt, hentry i hi]; exact habs i) (deadline s₀.nowSecs (z a).ttl)
  have hcalled := both_called hr hv hslots hk s₀
  have hne : b.toNat ≠ a.toNat := by
    revert hab
    cases a <;> cases b <;> decide
  obtain ⟨es, hes, hend, hdone, halong⟩ := runs_around (code g) tick
    (P := after g s₀ [.call 0 (z false).call, .call 1 (z true).call])
    (F := fun s => s.nowMs = s₀.nowMs) hne
    (by rw [hcalled]; exact twoCalls_toNat a) (by rw [hcalled]; exact twoCalls_toNat b)
    (code_set_ne_ret hr hv hslots hk a) (code_set_ne_ret hr hv hslots hk b)
    (q := (setWrite g r (z a).key (z a).val (g.hash (z a).key) (deadline s₀.nowSecs (z a).ttl)
      p).map Res.flag) (by intro _ h; cases h)
    (by rw [hcalled]; exact (hreach₁.mono fun s hs => hs.1).bind fun v => .ret (Res.flag v))
    ((hreach₂.mono fun s hs => hs.1.trans hclock₁).bind fun v => .ret (Res.flag v))
    ((hreach₃.mono fun s hs => hs.trans (hclock₂.trans hclock₁)).bind fun v => .ret (Res.flag v))
  have hnone : (after g s₀ [.call 0 (z false).call, .call 1 (z true).call]).done = [] := by
    rw [hcalled]
  rw [hnone] at hdone
  exact ⟨es, s₂, hes, hentry, hstored.other, hend, hdone, halong⟩

/-- **One spot for two**: the value of the second is written over, and is not read again. -/
theorem disturbed {a b : Bool} (hab : b ≠ a) (hkey : (z a).key ≠ (z b).key)
    (habs : ∀ i, ¬ HasAt g r (z a).key s₀ i) (hone : ∀ i, HasAt g r (z b).key s₀ i → i = p) :
    ¬ Undisturbed g r s₀ z := by
  intro h
  obtain ⟨es, s₂, hes, hentry, hother, hend, hdone, halong⟩ :=
    overtaken hr hv hslots hk hin ht hspot hab habs
  have hget := h es (fun e he => ?_) (halong.mono fun P e he => ?_) (fun c => ?_) b
  · rw [hend, get_gone fun r' i hi => ?_] at hget
    · cases hget
    rcases r.eq_or_other r' with rfl | rfl
    · by_cases hip : i = p
      · subst hip
        have := (Entry.matches_iff.1 hi).2.2.2
        simp only [Mem.write, Mem.put_self] at this
        exact hkey this
      · rw [HasAt, Mem.write, Mem.put_ne _ _ _ _ hip, hentry i hip] at hi
        exact hip (hone i hi)
    · rw [HasAt, Mem.write, Mem.put_region _ _ _ _ r.other_ne] at hi
      exact hother i hi
  · obtain ⟨u, rfl⟩ := hes e he
    intro t c h
    cases h
  · have hsecs : (P.exec (code g) tick e).shared.nowSecs = s₀.nowSecs := by
      rw [Mem.nowSecs, Mem.nowSecs, he]
    rwa [hsecs]
  · rw [hdone]
    by_cases hc : c = a
    · exact ⟨_, .head _, by rw [hc], rfl⟩
    · have hcb : c = b := by
        revert hab hc
        cases a <;> cases b <;> cases c <;> decide
      exact ⟨_, .tail _ (.head _), by rw [hcb], rfl⟩

end

/-- A slot that a `set` may take: empty, a tombstone, or expired. -/
def Reusable (r : Region) (s : Mem) (i : Nat) : Prop :=
  (s.entry r i).state ≠ .occupied ∨ (s.entry r i).expired s.nowSecs = true

theorem exists_spot (hroom : ∃ i ∈ g.window r (g.hash k), Reusable r s i) :
    ∃ p, spot g r k s = some p := by
  obtain ⟨i, hi, hfree⟩ := hroom
  refine isSome_iff_exists.1 ?_
  simp only [spot, isSome_or, Bool.or_eq_true, find?_isSome]
  rcases hfree with hfree | hexp
  · exact .inl (.inr ⟨i, hi, by simpa using hfree⟩)
  · exact .inr ⟨i, hi, hexp⟩

/-- **When two `set`s do not disturb each other.** Two keys are set to values of one size, and the
window of each has a slot to spare. When the spots of the two differ, each value is read under its
key once both have returned, in every interleaving. When they do not, and neither key is in two
slots, there is an interleaving in which one of the values is lost. -/
theorem undisturbed_iff {z : Bool → Setter} (hkey : (z false).key ≠ (z true).key)
    (hr : ∀ b, home (z b).val = r) (hv : ∀ b, (z b).val.length ≤ VAL_LARGE)
    (hslots : g.slots r ≠ 0) (hk : ∀ b, (z b).key.length ≤ KEY_MAX)
    (hin : ∀ b, InPlace g (z b).key s₀) (ht : InTime g r s₀ z s₀.nowSecs)
    (hroom : ∀ b, ∃ i ∈ g.window r (g.hash (z b).key), Reusable r s₀ i) :
    (spot g r (z false).key s₀ ≠ spot g r (z true).key s₀ → Undisturbed g r s₀ z) ∧
      ((∀ b i j, HasAt g r (z b).key s₀ i → HasAt g r (z b).key s₀ j → i = j) →
        Undisturbed g r s₀ z → spot g r (z false).key s₀ ≠ spot g r (z true).key s₀) := by
  have hspots : ∀ b, ∃ p, spot g r (z b).key s₀ = some p := fun b => exists_spot (hroom b)
  constructor
  · intro hne
    choose q hq using hspots
    refine undisturbed_of_ne hkey hr hv hslots hk hin ht
      (fun b => spot_spec (hin b) (hq b)) fun heq => hne ?_
    rw [hq, hq, heq]
  · intro hone h heq
    obtain ⟨p, hp⟩ := hspots false
    have hspot : ∀ b, Spot g r (z b).key s₀ p := by
      intro b
      cases b
      exacts [spot_spec (hin false) hp, spot_spec (hin true) (heq ▸ hp)]
    by_cases habs : ∀ i, ¬ HasAt g r (z false).key s₀ i
    · refine disturbed hr hv hslots hk hin ht hspot (by decide) hkey habs (fun i hi => ?_) h
      cases hspot true with
      | own hl => exact hone true i p hi hl.has
      | free habs' _ => exact absurd hi (habs' i)
      | expired habs' _ _ => exact absurd hi (habs' i)
    · have hown : HasAt g r (z false).key s₀ p := by
        cases hspot false with
        | own hl => exact hl.has
        | free habs' _ => exact absurd habs' habs
        | expired habs' _ _ => exact absurd habs' habs
      have habs' : ∀ i, ¬ HasAt g r (z true).key s₀ i := by
        cases hspot true with
        | own hl =>
          have h1 := (Entry.matches_iff.1 hown).2.2.2
          have h2 := (Entry.matches_iff.1 hl.has).2.2.2
          exact absurd (h1.symm.trans h2) hkey
        | free habs' _ => exact habs'
        | expired habs' _ _ => exact habs'
      exact disturbed hr hv hslots hk hin ht hspot (by decide) hkey.symm habs'
        (fun i hi => hone false i p hi hown) h

/-- While their windows, which overlap, have two slots to spare each, two `set`s do not disturb each
other. -/
def RoomForBoth (g : Config) : Prop :=
  ∀ r s₀ z, (z false).key ≠ (z true).key → (∀ b, home (z b).val = r) →
    (∀ b, (z b).val.length ≤ VAL_LARGE) → g.slots r ≠ 0 → (∀ b, (z b).key.length ≤ KEY_MAX) →
    (∀ b, InPlace g (z b).key s₀) → InTime g r s₀ z s₀.nowSecs →
    (∃ i, ∀ b, i ∈ g.window r (g.hash (z b).key)) →
    (∀ b, ∃ i ∈ g.window r (g.hash (z b).key), ∃ j ∈ g.window r (g.hash (z b).key),
      i ≠ j ∧ Reusable r s₀ i ∧ Reusable r s₀ j) →
    Undisturbed g r s₀ z

def twoKeys : Bool → Setter
  | false => ⟨none, ofString "k2", [1], 0⟩
  | true => ⟨none, ofString "k3", [2], 0⟩

theorem inPlace_init (g : Config) (k : Bytes) (now : Nat) : InPlace g k (.init now) := by
  intro r i hi
  simp [HasAt, Entry.matches, Mem.init, Entry.zeroed] at hi

theorem inTime_of_forever {z : Bool → Setter} (hz : ∀ b, (z b).ttl = 0) :
    InTime g r s₀ z s₀.nowSecs :=
  fun b => ⟨fun _ _ => rfl, fun t _ _ => .inl (by simp [deadline, hz b])⟩

/-- Both find the home slot empty, in an empty table. -/
theorem set_lost : ¬ RoomForBoth tiny := by
  intro h
  have habs : ∀ b i, ¬ HasAt tiny .small (twoKeys b).key (.init 0) i := fun b i hi => by
    simp [HasAt, Entry.matches, Mem.init, Entry.zeroed] at hi
  have hfree : ∀ i, Reusable .small (.init 0) i := fun i => .inl (by simp [Mem.init, Entry.zeroed])
  have ht : InTime tiny .small (.init 0) twoKeys 0 := inTime_of_forever (by decide)
  refine disturbed (a := false) (b := true) (p := 14) (by decide) (by decide) (by decide)
    (by decide) (fun b => inPlace_init tiny _ 0) ht
    (fun b => .free (habs b) ?_) (by decide) (by decide) (habs false)
    (fun i hi => absurd hi (habs _ i))
    (h .small (.init 0) twoKeys (by decide) (by decide) (by decide) (by decide) (by decide)
      (fun b => inPlace_init tiny _ 0) ht ⟨14, ?_⟩
      fun b => ⟨14, ?_, 15, ?_, by decide, hfree 14, hfree 15⟩)
  · cases b <;> decide
  · decide
  · cases b <;> decide
  · cases b <;> decide

/-- Two keys with two home slots. -/
def twoHomes : Bool → Setter
  | false => ⟨none, ofString "k2", [1], 0⟩
  | true => ⟨none, ofString "k1", [2], 0⟩

theorem undisturbed_two_homes : spot tiny .small (twoHomes false).key (.init 0) ≠
        spot tiny .small (twoHomes true).key (.init 0) ∧
      Undisturbed tiny .small (.init 0) twoHomes := by
  have hne : spot tiny .small (twoHomes false).key (.init 0) ≠
      spot tiny .small (twoHomes true).key (.init 0) := by decide
  refine ⟨hne, (undisturbed_iff (by decide) (by decide) (by decide) (by decide) (by decide)
    (fun b => inPlace_init tiny _ 0) (inTime_of_forever (by decide)) fun b => ?_).1 hne⟩
  exact ⟨14, by cases b <;> decide, .inl (by simp [Mem.init, Entry.zeroed])⟩

end Askr.Kv
