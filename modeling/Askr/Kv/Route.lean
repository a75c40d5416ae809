import Askr.Kv.Delete

/-!
# The two regions

The public functions route over two regions. A `set` clears the key from one region and then puts it
into the other (`set_eq`), and a `get` looks into the small one and then into the large one. What a
`get` returns is the first entry of the key on its walk (`Leads`, `get_leads`). What a call clears a
region with are tombstones (`Region.delete_buries`), and alone it gets to the end of it
(`exists_cleared`).
-/

namespace Askr.Kv

open Conc Prog Probe

/-- The region of a value, by its size. -/
def home (val : Bytes) : Region := if val.length ≤ VAL_SMALL then .small else .large

/-- The region a `set` clears first. -/
def Region.other : Region → Region
  | .small => .large
  | .large => .small

theorem Region.other_ne (r : Region) : r.other ≠ r := by cases r <;> decide

theorem Region.eq_or_other (r r' : Region) : r' = r ∨ r' = r.other := by
  cases r <;> cases r' <;> decide

theorem set_eq {g : Config} {key val : Bytes} {ttl : Nat} (hk : key.length ≤ KEY_MAX)
    (hv : val.length ≤ VAL_LARGE) :
    set g key val ttl = ((home val).other.delete g key (g.hash key)).bind fun _ =>
      (home val).set g key val (g.hash key) ttl := by
  rw [set, if_neg (by omega)]
  by_cases hs : val.length ≤ VAL_SMALL
  · simp [home, hs, Region.other]
  · simp [home, hs, hv, Region.other]

theorem length_le_valMax {val : Bytes} (hv : val.length ≤ VAL_LARGE) :
    val.length ≤ (home val).valMax := by
  by_cases hs : val.length ≤ VAL_SMALL <;> simp [home, hs, Region.valMax, hv]

/-- The walk of the key in the region gets to slot `i` before any other entry of the key. -/
structure Leads (g : Config) (k : Bytes) (r : Region) (s : Mem) (i : Nat) : Prop where
  has : HasAt g r k s i
  place : Place g r k s i
  first : ∀ j ∈ passed (g.window r (g.hash k)) i, ¬ HasAt g r k s j

variable {g : Config} {k : Bytes} {r : Region} {s s' : Mem} {i : Nat}

/-! ## The first entry of a key -/

theorem Leads.step (h : Leads g k r s i) {done rest : List Nat} {j : Nat}
    (hpath : g.window r (g.hash k) = done ++ j :: rest) (hi : i ∉ done) :
    j = i ∨ (i ∉ done ++ [j] ∧ (s.entry r j).state ≠ .empty ∧
      (s.entry r j).matches k (g.hash k) = false) := by
  by_cases hji : j = i
  · exact .inl hji
  · have hj := (mem_passed_of_not_mem hpath h.place.1 hi).resolve_left hji
    refine .inr ⟨by simp [hi, Ne.symm hji], h.place.2 j hj, Bool.eq_false_iff.2 (h.first j hj)⟩

theorem Leads.find?_stops (h : Leads g k r s i) :
    (g.window r (g.hash k)).find? (stops r k (g.hash k) s) = some i := by
  refine find?_eq_some_iff.2 ⟨h.place.1, by simp [stops, show _ = true from h.has], ?_⟩
  intro j hj hstop
  simp only [stops, Bool.or_eq_true, decide_eq_true_eq] at hstop
  exact hstop.elim (h.first j hj) (h.place.2 j hj)

theorem exists_leads (hin : InPlace g k s) {j : Nat} (hj : HasAt g r k s j) :
    ∃ i, Leads g k r s i := by
  have hsome : ((g.window r (g.hash k)).find? fun x =>
      (s.entry r x).matches k (g.hash k)).isSome :=
    List.find?_isSome.2 ⟨j, (hin r j hj).2.1, hj⟩
  obtain ⟨i, hi⟩ := Option.isSome_iff_exists.1 hsome
  obtain ⟨-, hm, hpre⟩ := find?_eq_some_iff.1 hi
  exact ⟨i, hm, (hin r i hm).2, hpre⟩

theorem Leads.congr (h : Leads g k r s i) (he : s'.entry r = s.entry r) : Leads g k r s' i := by
  refine ⟨?_, ⟨h.place.1, ?_⟩, ?_⟩
  · simpa [HasAt, he] using h.has
  · simpa [he] using h.place.2
  · simpa [HasAt, he] using h.first

/-! ## Lookups -/

theorem get_gone (h : Gone g k s) : (get g k).run s = (s, none) := by
  have hno : ∀ r j, (s.entry r j).matches k (g.hash k) = false :=
    fun r j => Bool.eq_false_iff.2 (h r j)
  rw [get]
  split
  · rfl
  · rw [run_bind, Region.get_absent (hno .small)]
    exact Region.get_absent (hno .large)

theorem get_leads (hslots : g.slots r ≠ 0) (hsmall : r = .large → ∀ j, ¬ HasAt g .small k s j)
    (hl : Leads g k r s i) (hexp : (s.entry r i).expired s.nowSecs = false) :
    (get g k).run s = (s, some (s.entry r i).val) := by
  have hfound := Region.get_found hslots hl.find?_stops hl.has
  rw [hexp] at hfound
  rw [get, if_neg (Nat.not_lt.2 hl.has.length_le), run_bind]
  cases r with
  | small =>
    rw [hfound]
    rfl
  | large =>
    rw [Region.get_absent fun j => Bool.eq_false_iff.2 (hsmall rfl j)]
    exact hfound

/-! ## Clearing a region -/

theorem Region.delete_buries (g : Config) (r : Region) (key : Bytes) (h : Nat) :
    (r.delete g key h).Guar fun s s' => s' = s ∨ ∃ j, s' = s.bury r j :=
  (Region.delete_act g).mono fun _ _ ha => ha.buries

theorem Region.get_buries (g : Config) (r : Region) (key : Bytes) (h : Nat) :
    (r.get g key h).Guar fun s s' => s' = s ∨ ∃ j, s' = s.bury r j :=
  (Region.get_act g).mono fun _ _ ha => ha.buries

theorem Fades.bury (s : Mem) (r : Region) (j : Nat) : Fades g k s (s.bury r j) := by
  refine ⟨fun r' x hx => ?_, fun r' x hx => ?_⟩ <;> rcases s.bury_cases r j r' x with hst | heq
  · simp [hst]
  · rwa [heq]
  · cases hst.symm.trans (Entry.matches_iff.1 hx).1
  · rwa [HasAt, heq] at hx

theorem exists_cleared (hin : InPlace g k s) (r : Region) {F : Mem → Prop}
    (hF : ∀ s j, F s → F (s.bury r.other j)) (hs : F s) :
    ∃ b s', Reaches F (r.other.delete g k (g.hash k)) s (.ret b) s' ∧ F s' ∧
      (∀ j, ¬ HasAt g r.other k s' j) ∧ s'.entry r = s.entry r := by
  have hguar := Region.delete_buries g r.other k (g.hash k)
  have hkeep : (r.other.delete g k (g.hash k)).Guar fun s₁ s₂ =>
      (F s₁ → F s₂) ∧ s₂.entry r = s₁.entry r := by
    refine hguar.mono fun s₁ s₂ h => ?_
    rcases h with rfl | ⟨j, rfl⟩
    exacts [⟨id, rfl⟩, ⟨hF s₁ j, s₁.put_region _ _ _ r.other_ne.symm⟩]
  obtain ⟨hend, hsame⟩ := hkeep.run (fun _ => ⟨id, rfl⟩)
    (fun {_ _ _} h h' => ⟨fun hs => h'.1 (h.1 hs), h'.2.trans h.2⟩) s
  exact ⟨_, _, hkeep.reaches (fun _ _ h => h.1) hs, hend hs,
    (Region.delete_gone hin).run (.refl g k), hsame⟩

end Askr.Kv
