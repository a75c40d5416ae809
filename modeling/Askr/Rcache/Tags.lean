import Askr.Rcache.Run

/-!
# Tag invalidation

`forget_tag` bumps a tag's generation in a table of `TAG_SLOTS` slots, and an entry is served only
while the generations it recorded are the current ones. Forgetting a tag raises its generation
unless the word comes round (`tagGen_lt_forgetTagIn`), and forgetting another one does not lower it
(`tagGen_le_forgetTagIn`), except that a tag whose window is full of others takes over its home slot
(`Displaces`), and the tag that was there reads as never forgotten.

`forgotten_entry_stays_forgotten` puts this over runs; `forgotten_entry_served_again` has seventeen
tags with one home slot.
-/

namespace Askr.Rcache

open Askr.Ns Function List Run Bytes Probe

/-! ## One generation -/

/-- A window with no slot for `h`: neither the tag itself nor a free slot. -/
def Full (tag : Nat → TagGen) (h : Nat) (w : List Nat) : Prop :=
  ∀ i ∈ w, (tag i).hash ≠ h ∧ (tag i).hash ≠ 0

/-- **What `forget_tag` writes.** When the window is full of other tags it takes over the home slot;
otherwise it writes a slot that held the tag or nothing, where a lookup then finds a higher
generation than before if there is one. -/
theorem forgetTagIn_cases (tag : Nat → TagGen) (h : Nat) (w : List Nat) :
    (Full tag h w ∧ forgetTagIn tag h w =
        update tag (h % TAG_SLOTS) ⟨h, u64Add (tag (h % TAG_SLOTS)).gen 1⟩) ∨
      ∃ j g, forgetTagIn tag h w = update tag j ⟨h, g⟩ ∧
        ((tag j).hash = h ∨ (tag j).hash = 0) ∧ Reach (fun i => (tag i).hash = 0) w j ∧
        ((∀ i ∈ w, (tag i).gen + 1 < U64) → tagGenIn tag h w < g) ∧
        tagGenIn (update tag j ⟨h, g⟩) h w = g := by
  induction w with
  | nil => exact .inl ⟨by simp [Full], rfl⟩
  | cons i w ih =>
    by_cases hi : (tag i).hash = h
    · refine .inr ⟨i, u64Add (tag i).gen 1, ?_, .inl hi, reach_head, fun hlast => ?_, ?_⟩
      · simp [forgetTagIn, hi]
      · rw [tagGenIn, if_pos hi, u64Add, Nat.mod_eq_of_lt (hlast i (.head _))]
        exact Nat.lt_succ_self _
      · simp [tagGenIn]
    by_cases h0 : (tag i).hash = 0
    · have hh : ¬ 0 = h := fun he => hi (h0.trans he)
      refine .inr ⟨i, 1, ?_, .inr h0, reach_head, ?_, ?_⟩ <;> simp [forgetTagIn, tagGenIn, h0, hh]
    rw [forgetTagIn, if_neg hi, if_neg h0, tagGenIn, if_neg hi, if_neg h0]
    rcases ih with ⟨hw, hf⟩ | ⟨j, g, hf, hj, hr, hlt, hg⟩
    · refine .inl ⟨fun x hx => ?_, hf⟩
      rcases mem_cons.1 hx with rfl | hx
      exacts [⟨hi, h0⟩, hw x hx]
    · have hij : i ≠ j := by
        rintro rfl
        exact hj.elim hi h0
      refine .inr ⟨j, g, hf, hj, reach_cons.2 (.inr ⟨h0, hr⟩),
        fun hlast => hlt fun x hx => hlast x (.tail _ hx), ?_⟩
      rw [tagGenIn, update_of_ne hij, if_neg hi, if_neg h0, hg]

/-- Writing another tag over a slot that did not hold `h` does not lower the generation of `h`: at
most a walk that ended at a free slot now goes on. -/
theorem tagGenIn_le_update {tag : Nat → TagGen} {h j u g : Nat} (hu : u ≠ h) (hu0 : u ≠ 0)
    (hj : (tag j).hash ≠ h) (w : List Nat) :
    tagGenIn tag h w ≤ tagGenIn (update tag j ⟨u, g⟩) h w := by
  induction w with
  | nil => exact Nat.le_refl _
  | cons i w ih =>
    by_cases hij : i = j
    · subst hij
      simp only [tagGenIn, update_self, if_neg hu, if_neg hu0, if_neg hj]
      split
      · exact Nat.zero_le _
      · exact ih
    · simp only [tagGenIn, update_of_ne hij]
      split
      · exact Nat.le_refl _
      · split
        · exact Nat.le_refl _
        · exact ih

theorem tagGenIn_absent {tag : Nat → TagGen} {h : Nat} {w : List Nat}
    (hw : ∀ i ∈ w, (tag i).hash ≠ h) : tagGenIn tag h w = 0 := by
  induction w with
  | nil => rfl
  | cons i w ih =>
    rw [tagGenIn, if_neg (hw i (.head _))]
    split
    exacts [rfl, ih fun x hx => hw x (.tail _ hx)]

theorem tagWindow_eq (h : Nat) : ∃ w, tagWindow h = h % TAG_SLOTS :: w := by
  rw [tagWindow, PROBE, range_succ_eq_map, map_cons, Nat.add_zero, Nat.mod_mod]
  exact ⟨_, rfl⟩

/-- Forgetting a tag raises its generation, if no generation of its window is the last one. -/
theorem tagGen_lt_forgetTagIn {tag : Nat → TagGen} {h : Nat}
    (hlast : ∀ i ∈ tagWindow h, (tag i).gen + 1 < U64) :
    tagGen tag h < tagGen (forgetTagIn tag h (tagWindow h)) h := by
  rcases forgetTagIn_cases tag h (tagWindow h) with ⟨hfull, hf⟩ | ⟨j, g, hf, -, -, hlt, hg⟩
  · obtain ⟨w, hw⟩ := tagWindow_eq h
    rw [tagGen, tagGenIn_absent fun i hi => (hfull i hi).1, hf, tagGen, hw, tagGenIn, update_self,
      if_pos rfl, u64Add, Nat.mod_eq_of_lt (hlast _ (hw ▸ .head _))]
    exact Nat.succ_pos _
  · rw [hf]
    unfold tagGen
    rw [hg]
    exact hlt hlast

/-- Does `forget_tag` of a tag of hash `u` take the slot of a tag of hash `h` over? -/
def Displaces (tag : Nat → TagGen) (h u : Nat) : Prop :=
  u ≠ h ∧ Full tag u (tagWindow u) ∧ (tag (u % TAG_SLOTS)).hash = h

/-- Is the tag of hash `u` the tag of hash `h`, with the last generation in its window? -/
def ComesRound (tag : Nat → TagGen) (h u : Nat) : Prop :=
  u = h ∧ ∃ i ∈ tagWindow h, U64 ≤ (tag i).gen + 1

theorem tagGen_le_forgetTagIn {tag : Nat → TagGen} {h u : Nat} (h0 : h ≠ 0) (hu0 : u ≠ 0)
    (hd : ¬ Displaces tag h u) (hc : ¬ ComesRound tag h u) :
    tagGen tag h ≤ tagGen (forgetTagIn tag u (tagWindow u)) h := by
  by_cases hu : u = h
  · subst hu
    exact Nat.le_of_lt (tagGen_lt_forgetTagIn fun i hi =>
      Nat.lt_of_not_le fun hle => hc ⟨rfl, i, hi, hle⟩)
  rcases forgetTagIn_cases tag u (tagWindow u) with ⟨hfull, hf⟩ | ⟨j, g, hf, hj, -⟩
  · rw [hf]
    exact tagGenIn_le_update hu hu0 (fun he => hd ⟨hu, hfull, he⟩) _
  · rw [hf]
    refine tagGenIn_le_update hu hu0 ?_ _
    rcases hj with hj | hj <;> rw [hj]
    exacts [hu, Ne.symm h0]

/-! ## Tags that are left alone -/

/-- No tag is behind a free slot of its window. -/
def Packed (tag : Nat → TagGen) : Prop :=
  ∀ h ≠ 0, ∀ i ∈ tagWindow h, (tag i).hash = h → Reach (fun j => (tag j).hash = 0) (tagWindow h) i

/-- Every `forget_tag` writes a slot that its walk gets to. -/
theorem packed_forgetTagIn {tag : Nat → TagGen} {u : Nat} (h : Packed tag) (hu0 : u ≠ 0) :
    Packed (forgetTagIn tag u (tagWindow u)) := by
  have hwrite : ∃ j g, forgetTagIn tag u (tagWindow u) = update tag j ⟨u, g⟩ ∧
      Reach (fun i => (tag i).hash = 0) (tagWindow u) j := by
    rcases forgetTagIn_cases tag u (tagWindow u) with ⟨-, hf⟩ | ⟨j, g, hf, -, hr, -⟩
    · obtain ⟨w, hw⟩ := tagWindow_eq u
      exact ⟨_, _, hf, hw ▸ reach_head⟩
    · exact ⟨j, g, hf, hr⟩
  obtain ⟨j, g, hf, hj⟩ := hwrite
  have hmono : ∀ {w i}, Reach (fun x => (tag x).hash = 0) w i →
      Reach (fun x => (update tag j ⟨u, g⟩ x).hash = 0) w i := by
    rintro w i ⟨pre, post, hw, hpre⟩
    refine ⟨pre, post, hw, fun x hx hx0 => ?_⟩
    by_cases hxj : x = j
    · subst hxj
      exact hu0 (by simpa using hx0)
    · exact hpre x hx (by simpa [hxj] using hx0)
  rw [hf]
  intro k hk i hi hik
  refine hmono ?_
  by_cases hij : i = j
  · subst hij
    have hku : u = k := by simpa using hik
    exact hku ▸ hj
  · exact h k hk i hi (by simpa [hij] using hik)

theorem tagGenIn_update {tag : Nat → TagGen} {h j u g : Nat} (hu : u ≠ h) (hu0 : u ≠ 0)
    (hj : (tag j).hash ≠ h) {w : List Nat}
    (hw : ∀ i ∈ w, (tag i).hash = h → Reach (fun x => (tag x).hash = 0) w i) :
    tagGenIn (update tag j ⟨u, g⟩) h w = tagGenIn tag h w := by
  induction w with
  | nil => rfl
  | cons i w ih =>
    by_cases hi : (tag i).hash = h
    · have hij : i ≠ j := fun he => hj (he ▸ hi)
      simp [tagGenIn, hij, hi]
    have hrest : ∀ x ∈ w, (tag x).hash = h →
        (tag i).hash ≠ 0 ∧ Reach (fun x => (tag x).hash = 0) w x := fun x hx hxh =>
      (reach_cons.1 (hw x (.tail _ hx) hxh)).resolve_left fun he => hi (he ▸ hxh)
    by_cases h0 : (tag i).hash = 0
    · have habs : ∀ x ∈ i :: w, (update tag j ⟨u, g⟩ x).hash ≠ h := by
        intro x hx
        by_cases hxj : x = j
        · simpa [hxj] using hu
        · rw [update_of_ne hxj]
          rcases mem_cons.1 hx with rfl | hx
          exacts [hi, fun hxh => (hrest x hx hxh).1 h0]
      rw [tagGenIn_absent habs, tagGenIn, if_neg hi, if_pos h0]
    · have hw' := ih fun x hx hxh => (hrest x hx hxh).2
      by_cases hij : i = j
      · subst hij
        simp [tagGenIn, hu, hu0, hi, h0, hw']
      · simp [tagGenIn, hij, hi, h0, hw']

/-- **A tag is left alone** by the `forget_tag` of another one that does not take its slot over. -/
theorem tagGen_forgetTagIn_of_ne {tag : Nat → TagGen} {h u : Nat} (hp : Packed tag) (h0 : h ≠ 0)
    (hu0 : u ≠ 0) (hu : u ≠ h) (hd : ¬ Displaces tag h u) :
    tagGen (forgetTagIn tag u (tagWindow u)) h = tagGen tag h := by
  rcases forgetTagIn_cases tag u (tagWindow u) with ⟨hfull, hf⟩ | ⟨j, g, hf, hj, -⟩
  · rw [hf]
    exact tagGenIn_update hu hu0 (fun he => hd ⟨hu, hfull, he⟩) (hp h h0)
  · rw [hf]
    refine tagGenIn_update hu hu0 ?_ (hp h h0)
    rcases hj with hj | hj <;> rw [hj]
    exacts [hu, Ne.symm h0]

/-! ## Runs -/

/-- Does the operation lose the generation of the tag `T`: is its slot taken over for another tag,
or is it forgotten with the last generation of the word in its window? -/
def Op.loses (hasher : Hasher) (T : Bytes) (c : Cache) : Op → Prop
  | .forgetTag u => Displaces c.tag (hashBytes hasher T) (hashBytes hasher u) ∨
    ComesRound c.tag (hashBytes hasher T) (hashBytes hasher u)
  | _ => False

/-- Slot `i`, if it is live, recorded generation `g` for tag hash `h`, whose generation is `n` or
more by now. -/
def Carries (i h g n : Nat) (c : Cache) : Prop :=
  (c.entry i).state = .occupied → (h, g) ∈ (c.entry i).tags ∧ n ≤ tagGen c.tag h

/-- An operation leaves the tag table alone, is a `forget_tag`, or is a restart that empties
everything. -/
theorem step_tag (hasher : Hasher) (c : Cache) (op : Op) :
    (step hasher c op).tag = c.tag ∨ (∃ u, op = .forgetTag u) ∨
      ∃ slots, (∃ saved stamp stamp' now, op = .restart slots saved stamp stamp' now) ∧
        step hasher c op = .init slots := by
  cases op with
  | store key page now =>
    refine .inl ?_
    simp only [step, store]
    split <;> rfl
  | peek key now =>
    refine .inl ?_
    simp only [step, peek, peekSlot]
    rcases peekIn_table c (hashBytes hasher key) now (c.probe (hashBytes hasher key)) with
      h | ⟨j, -, h, -⟩ <;> rw [h]
    rfl
  | forgetTag tag => exact .inr (.inl ⟨tag, rfl⟩)
  | purgeUrl | banGlob | flushApp | flushAll => exact .inl (c.sweep_tag _)
  | restart slots saved stamp stamp' now =>
    simp only [step]
    rw [restart_eq]
    split
    · exact .inl (c.sweep_tag _)
    · exact .inr (.inr ⟨slots, ⟨saved, stamp, stamp', now, rfl⟩, rfl⟩)

/-- One operation keeps `Carries`, if it neither loses the tag's generation nor rewrites the
slot. -/
theorem Carries.step {hasher : Hasher} {T : Bytes} {i g n : Nat} {c : Cache} {op : Op}
    (hd : ¬ op.loses hasher T c) (hw : op.writes hasher c ≠ some i)
    (hc : Carries i (hashBytes hasher T) g n c) :
    Carries i (hashBytes hasher T) g n (step hasher c op) := by
  intro hocc
  have hkeep := step_keeps hasher c op hw hocc
  rw [hkeep] at hocc ⊢
  obtain ⟨hmem, hn⟩ := hc hocc
  refine ⟨hmem, ?_⟩
  rcases step_tag hasher c op with h | ⟨u, rfl⟩ | ⟨slots, -, h⟩
  · rwa [h]
  · exact Nat.le_trans hn
      (tagGen_le_forgetTagIn (hashBytes_ne_zero _ _) (hashBytes_ne_zero _ _)
        (fun h => hd (.inl h)) fun h => hd (.inr h))
  · rw [h] at hkeep
    rw [← hkeep] at hocc
    exact absurd hocc (by simp [Cache.init, Entry.zeroed])

theorem Carries.not_served {hasher : Hasher} {i h g n : Nat} {c : Cache} (hgn : g < n)
    (hc : Carries i h g n c) (key : Bytes) (now : Nat) :
    (peekSlot hasher c key now).2 ≠ some i := by
  intro hi
  obtain ⟨-, hocc, -, htag⟩ := peekIn_hit_iff.1 hi
  obtain ⟨hmem, hn⟩ := hc hocc
  rw [Entry.tagInvalid, any_eq_false] at htag
  exact htag (h, g) hmem (by simpa using by omega)

/-- A `forget_tag` of the tag that does not lose its generation raises it. -/
theorem tagGen_lt_of_spared {hasher : Hasher} {T : Bytes} {c : Cache}
    (h : ¬ (Op.forgetTag T).loses hasher T c) : tagGen c.tag (hashBytes hasher T) <
      tagGen (step hasher c (.forgetTag T)).tag (hashBytes hasher T) :=
  tagGen_lt_forgetTagIn fun i hi =>
    Nat.lt_of_not_le fun hle => h (.inr ⟨rfl, i, hi, hle⟩)

/-- What an operation must not do to a slot and its tag: lose the generation of the tag, or give the
slot to another page. -/
def Op.spares (hasher : Hasher) (T : Bytes) (i : Nat) (c : Cache) (op : Op) : Prop :=
  ¬ op.loses hasher T c ∧ op.writes hasher c ≠ some i

/-- A run of such operations keeps `Carries`. -/
theorem Carries.runs {hasher : Hasher} {T : Bytes} {i g n : Nat} {c : Cache} {ops : List Op}
    (hops : Run.Along (Rcache.step hasher) (Op.spares hasher T i) c ops)
    (hc : Carries i (hashBytes hasher T) g n c) :
    Carries i (hashBytes hasher T) g n (Run.runs (Rcache.step hasher) c ops) :=
  hops.inv (fun _ _ hC => Carries.step hC.1 hC.2) hc

/-- If one of them forgets the tag, its generation is higher at the end. -/
theorem Carries.runs_forget {hasher : Hasher} {T : Bytes} {i g n : Nat} {c : Cache}
    {ops : List Op} (hops : Run.Along (Rcache.step hasher) (Op.spares hasher T i) c ops)
    (hT : .forgetTag T ∈ ops) (hc : Carries i (hashBytes hasher T) g n c) :
    Carries i (hashBytes hasher T) g (n + 1) (Run.runs (Rcache.step hasher) c ops) := by
  obtain ⟨before, after, rfl⟩ := append_of_mem hT
  obtain ⟨hbefore, hforget, hafter⟩ := along_append.1 hops
  rw [runs_append, runs_cons]
  refine Carries.runs hafter fun hocc => ?_
  obtain ⟨hmem, hn⟩ := hc.runs hbefore hocc
  exact ⟨hmem, Nat.lt_of_le_of_lt hn (tagGen_lt_of_spared hforget.1)⟩

/-- **A forgotten entry stays forgotten.** A page carrying the tag `T` is stored, `T` is forgotten
at some later point, and no operation since the store took over the slot of `T` in the tag table for
another tag or brought the generation of `T` round. As long as its slot is not given to another
page, no lookup of any key at any time serves it. -/
theorem forgotten_entry_stays_forgotten (hasher : Hasher) (c : Cache) (key : Bytes) (page : Page)
    (now : Nat) (T : Bytes) (hfit : page.fits) (hT : T ∈ page.tags) (before after : List Op)
    (hrun : Run.Along (step hasher) (fun c' op => ¬ op.loses hasher T c' ∧
        op.writes hasher c' ≠ some (storeSlot hasher c key))
      (store hasher c key page now).1 (before ++ .forgetTag T :: after)) (key' : Bytes)
    (now' : Nat) : (peekSlot hasher (Run.runs (step hasher) (store hasher c key page now).1
      (before ++ .forgetTag T :: after)) key' now').2 ≠ some (storeSlot hasher c key) := by
  have hstored : Carries (storeSlot hasher c key) (hashBytes hasher T)
      (tagGen c.tag (hashBytes hasher T)) (tagGen c.tag (hashBytes hasher T))
      (store hasher c key page now).1 := by
    intro _
    rw [store, if_pos hfit]
    exact ⟨by simpa [writeEntry] using ⟨T, hT, rfl, rfl⟩, Nat.le_refl _⟩
  have hend := hstored.runs_forget hrun (by simp)
  exact hend.not_served (Nat.lt_succ_self _) key' now'

/-! ## The run that brings an entry back -/

/-- A page of no lifetime, carrying the tags. -/
def tagPage (tags : List Bytes) : Page :=
  { status := 200, headers := [], body := ofString "page", ttl := 0, swr := 0, sie := 0, tags,
    app := none }

/-- A tag, and sixteen others with its home slot. -/
def tagT : Bytes := ofString "t2495"
def tagsAtHome : List Bytes :=
  ["t4201", "t4355", "t6371", "t8872", "t11312", "t11629", "t12697", "t12764", "t14306", "t15508",
    "t15802", "t17537", "t19816", "t19875", "t20801", "t23304"].map ofString

instance Full.decidable (tag : Nat → TagGen) (h : Nat) (w : List Nat) : Decidable (Full tag h w) :=
  inferInstanceAs (Decidable (∀ i ∈ w, _))

instance Op.decidableLoses (hasher : Hasher) (T : Bytes) (c : Cache) :
    (op : Op) → Decidable (op.loses hasher T c)
  | .forgetTag _ => inferInstanceAs (Decidable ((_ ∧ Full _ _ _ ∧ _) ∨ (_ ∧ ∃ i ∈ _, _)))
  | .store .. | .peek .. | .purgeUrl .. | .banGlob .. | .flushApp _ | .flushAll | .restart .. =>
    .isFalse id

/-- A page, its tag and another tag, in a tag table with room for both. -/
theorem forgotten_entry_stays_forgotten_two : (peekSlot bytesHash (Run.runs (step bytesHash)
      (store bytesHash (.init 16) (ofString "k") (tagPage [tagT]) 0).1
      ([] ++ .forgetTag tagT :: [.forgetTag (ofString "t4201")])) (ofString "k") 0).2 ≠
        some (storeSlot bytesHash (.init 16) (ofString "k")) :=
  forgotten_entry_stays_forgotten bytesHash (.init 16) (ofString "k") (tagPage [tagT]) 0 tagT
    (by decide) (by decide) [] [.forgetTag (ofString "t4201")]
    ⟨⟨by decide, by simp [Op.writes]⟩, ⟨by decide, by simp [Op.writes]⟩, trivial⟩
    (ofString "k") 0

/-- Tag invalidation as one would have it: whatever other tags are forgotten, a forgotten entry is
not served while it is in its slot. -/
def TagInvalidationPermanent (hasher : Hasher) : Prop :=
  ∀ (slots : Nat) (earlier : List Op) (key : Bytes) (page : Page) (now : Nat) (T : Bytes)
    (before after : List Op) (key' : Bytes) (now' : Nat),
    let c := Run.runs (step hasher) (.init slots) earlier
    let c' := (store hasher c key page now).1
    page.fits → T ∈ page.tags →
    Run.Along (step hasher) (fun d op => op.writes hasher d ≠ some (storeSlot hasher c key)) c'
      (before ++ .forgetTag T :: after) →
    (peekSlot hasher (Run.runs (step hasher) c' (before ++ .forgetTag T :: after)) key' now').2 ≠
      some (storeSlot hasher c key)

/-- **A forgotten entry is served again.** The sixteen tags of `tagsAtHome` are forgotten after
`tagT`: fifteen fill its window, the last takes its slot over, and a page stored under `tagT` before
it was first forgotten is valid again. -/
theorem forgotten_entry_served_again : ¬ TagInvalidationPermanent bytesHash := by
  intro h
  have hhit : (peekSlot bytesHash (runs (step bytesHash)
      (store bytesHash (.init 16) (ofString "k") (tagPage [tagT]) 0).1
      ([] ++ .forgetTag tagT :: tagsAtHome.map .forgetTag)) (ofString "k") 0).2 =
        some (storeSlot bytesHash (.init 16) (ofString "k")) := by
    decide +kernel
  refine h 16 [] (ofString "k") (tagPage [tagT]) 0 tagT [] (tagsAtHome.map .forgetTag)
    (ofString "k") 0 (by decide) (by decide) ?_ hhit
  simp [Along, tagsAtHome, Op.writes]

end Askr.Rcache
