import Askr.Kv.Peek

/-!
# The slots while they are written

Any number of callers update slots and read them, load by load and store by store (`Askr.Kv.Peek`).
`Versioned` holds between any two of these actions: the version of a slot is the number of marker
stores made to it, an odd one has a writer that holds the lock, and an even one has an entry that
was written whole. A caller relies on the slots it has locked to stand still, and on the others as
long as their version does (`CacheRely`); it stores to slots it has locked, under the marker
(`CacheStep`).

The updates keep to that (`update_valid`), and so does `get`, which returns only values that its
slot showed it with no update under way (`getSlots_valid`).
-/

namespace Askr.Kv

open Conc Conc.Prog Function Nat Cells

section
variable {W : Nat → Bytes → Bytes → Prop} {r : Region} {X : Cache → Prop} {me i : Nat}
  {s s' s'' : Cache}

/-- An occupied slot has a key and a value that were written there. -/
def Legit (W : Nat → Bytes → Bytes → Prop) (r : Region) (i : Nat) (raw : Raw) : Prop :=
  (raw.entry r).state = .occupied → W i (raw.entry r).key (raw.entry r).val

/-- What holds of the region between any two actions. -/
structure Versioned (W : Nat → Bytes → Bytes → Prop) (r : Region) (s : Cache) : Prop where
  version : ∀ i, s.slot i .version = s.marks i % U64
  held : ∀ i, s.marks i % 2 = 1 → s.lock i ≠ none
  legit : ∀ i, s.marks i % 2 = 0 → Legit W r i (s.slot i)

/-- What the caller `me` may do in one action. -/
structure CacheStep (me : Nat) (W : Nat → Bytes → Bytes → Prop) (r : Region) (s s' : Cache) :
    Prop where
  sound : Versioned W r s → Versioned W r s'
  frame : ∀ i, s.lock i ≠ some me → s'.slot i = s.slot i ∧ s'.marks i = s.marks i
  locks : ∀ i, s'.lock i = s.lock i ∨ s.lock i = none ∧ s'.lock i = some me ∨
    s.lock i = some me ∧ s'.lock i = none
  grows : ∀ i, Grows (fun s : Cache => s.marks i) (fun s => s.slot i) s s'
  marks_le : ∀ i, s'.marks i ≤ s.marks i + 1

/-- What the caller `me` may rely on while the others run, in states of `X`. -/
structure CacheRely (me : Nat) (W : Nat → Bytes → Bytes → Prop) (r : Region) (X : Cache → Prop)
    (s s' : Cache) : Prop where
  sound : Versioned W r s'
  inside : X s'
  mine : ∀ i, s.lock i = some me →
    s'.lock i = some me ∧ s'.slot i = s.slot i ∧ s'.marks i = s.marks i
  grows : ∀ i, Grows (fun s : Cache => s.marks i) (fun s => s.slot i) s s'

theorem CacheStep.refl (me : Nat) (W : Nat → Bytes → Bytes → Prop) (r : Region) (s : Cache) :
    CacheStep me W r s s :=
  ⟨id, fun _ _ => ⟨rfl, rfl⟩, fun _ => .inl rfl, fun _ => .refl s, fun _ => le_succ _⟩

theorem CacheRely.refl (hs : Versioned W r s) (hX : X s) : CacheRely me W r X s s :=
  ⟨hs, hX, fun _ h => ⟨h, rfl, rfl⟩, fun _ => .refl s⟩

theorem CacheRely.trans (h : CacheRely me W r X s s') (h' : CacheRely me W r X s' s'') :
    CacheRely me W r X s s'' where
  sound := h'.sound
  inside := h'.inside
  mine i hi := by
    obtain ⟨hl, hs, hm⟩ := h.mine i hi
    obtain ⟨hl', hs', hm'⟩ := h'.mine i hl
    exact ⟨hl', hs'.trans hs, hm'.trans hm⟩
  grows i := (h.grows i).trans (h'.grows i)

/-- A step of one caller is one that every other relies on. -/
theorem CacheStep.rely {me' : Nat} (h : CacheStep me' W r s s') (hne : me ≠ me')
    (hs : Versioned W r s) (hX : X s') : CacheRely me W r X s s' where
  sound := h.sound hs
  inside := hX
  mine i hi := by
    have hne' : s.lock i ≠ some me' := by
      rw [hi]
      exact fun heq => hne (Option.some.inj heq)
    refine ⟨?_, h.frame i hne'⟩
    rcases h.locks i with hl | ⟨hl, -⟩ | ⟨hl, -⟩
    · rw [hl, hi]
    · cases hi.symm.trans hl
    · exact absurd hl hne'
  grows := h.grows

/-! ## Locks -/

theorem setLock_step {o : Option Nat}
    (h : s.lock i = none ∧ o = some me ∨ s.lock i = some me ∧ o = none ∧ s.marks i % 2 = 0) :
    CacheStep me W r s (s.setLock i o) where
  sound hs := by
    refine ⟨hs.version, fun j hj => ?_, hs.legit⟩
    change s.marks j % 2 = 1 at hj
    change update s.lock i o j ≠ none
    by_cases hji : j = i
    · subst hji
      rcases h with ⟨-, rfl⟩ | ⟨-, -, hm⟩
      · simp
      · omega
    · rw [update_of_ne hji]
      exact hs.held j hj
  frame _ _ := ⟨rfl, rfl⟩
  locks j := by
    change update s.lock i o j = _ ∨ _ ∧ update s.lock i o j = _ ∨
      _ ∧ update s.lock i o j = _
    by_cases hji : j = i
    · subst hji
      rw [update_self]
      exact .inr (h.imp_right fun h => ⟨h.1, h.2.1⟩)
    · exact .inl (update_of_ne hji _ _)
  grows _ := ⟨Nat.le_refl _, fun _ _ => rfl⟩
  marks_le _ := le_succ _

theorem acquire_valid (n : Nat) : (acquire me i n).Valid (CacheRely me W r X) (CacheStep me W r)
      (fun b s' => b = true → ∃ s₀, Versioned W r s₀ ∧ X s₀ ∧ s₀.lock i = none ∧
        s' = s₀.setLock i (some me)) s := by
  induction n generalizing s with
  | zero => exact fun h => by cases h
  | succ n ih =>
    refine valid_atom fun s₁ h₁ => ?_
    split
    · rename_i hi
      exact ⟨setLock_step (.inl ⟨hi, rfl⟩), fun _ => ⟨s₁, h₁.sound, h₁.inside, hi, rfl⟩⟩
    · exact ⟨.refl .., ih⟩

/-- **A program under a slot lock** finds the slot without a writer in it, and has to leave it so.
-/
theorem locked_valid {α : Type} {body : Prog Cache α} {Q : α → Prop} (tries : Nat)
    (hbody : ∀ s₀, Versioned W r s₀ → X s₀ → s₀.lock i = none →
      body.Valid (CacheRely me W r X) (CacheStep me W r)
        (fun a s' => (s'.lock i = some me ∧ s'.marks i % 2 = 0) ∧ Q a) (s₀.setLock i (some me))) :
    (locked me tries i body).Valid (CacheRely me W r X) (CacheStep me W r)
      (fun o _ => ∀ a, o = some a → Q a) s := by
  refine Valid.bind ((acquire_valid tries).post fun b s' h => ?_)
  cases b with
  | false => exact fun a ha => by cases ha
  | true =>
    obtain ⟨s₀, hs, hX, hfree, rfl⟩ := h rfl
    refine Valid.bind ((hbody s₀ hs hX hfree).post ?_)
    rintro a s' ⟨⟨hl, hm⟩, hq⟩
    refine Valid.map _ (valid_atom fun s₁ h₁ => ?_)
    obtain ⟨hl₁, -, hm₁⟩ := h₁.mine i hl
    refine ⟨setLock_step (.inr ⟨hl₁, rfl, hm₁ ▸ hm⟩), fun a' ha' => ?_⟩
    cases ha'
    exact hq

/-! ## Stores -/

/-- The caller has the lock of the slot, and knows what is in it. -/
def Mine (me i : Nat) (raw : Raw) (c : Nat) (s : Cache) : Prop :=
  s.lock i = some me ∧ s.slot i = raw ∧ s.marks i = c

/-- What the holder of a lock knows of its slot, the others leave alone. -/
theorem Mine.rely {raw : Raw} {c : Nat} (h : Mine me i raw c s) (h' : CacheRely me W r X s s') :
    Mine me i raw c s' := by
  obtain ⟨hl, hs, hm⟩ := h'.mine i h.1
  exact ⟨hl, hs.trans h.2.1, hm.trans h.2.2⟩

@[simp] theorem put_lock (s : Cache) (i : Nat) (f : Field) (v : Nat) :
    (s.put i f v).lock = s.lock := rfl

@[simp] theorem put_slot_self (s : Cache) (i : Nat) (f : Field) (v : Nat) :
    (s.put i f v).slot i = update (s.slot i) f v := update_self ..

theorem put_slot_of_ne {j : Nat} (h : j ≠ i) (s : Cache) (f : Field) (v : Nat) :
    (s.put i f v).slot j = s.slot j := update_of_ne h _ _

@[simp] theorem put_version_marks (s : Cache) (i v : Nat) :
    (s.put i .version v).marks = update s.marks i (s.marks i + 1) := rfl

theorem put_marks {f : Field} (hf : f ≠ .version) (s : Cache) (i v : Nat) :
    (s.put i f v).marks = s.marks := if_neg hf

theorem put_step {f : Field} (hf : f ≠ .version) (hi : s.lock i = some me)
    (hm : s.marks i % 2 = 1) (v : Nat) : CacheStep me W r s (s.put i f v) where
  sound hs := by
    refine ⟨fun j => ?_, fun j hj => ?_, fun j hj => ?_⟩
    · by_cases hji : j = i
      · subst hji
        rw [put_slot_self, put_marks hf, update_of_ne (Ne.symm hf)]
        exact hs.version j
      · rw [put_slot_of_ne hji, put_marks hf]
        exact hs.version j
    · rw [put_marks hf] at hj
      exact hs.held j hj
    · rw [put_marks hf] at hj
      have hji : j ≠ i := by
        rintro rfl
        omega
      rw [put_slot_of_ne hji]
      exact hs.legit j hj
  frame j hj := by
    have hji : j ≠ i := by
      rintro rfl
      exact hj hi
    rw [put_slot_of_ne hji, put_marks hf]
    exact ⟨rfl, rfl⟩
  locks _ := .inl rfl
  grows j := by
    refine ⟨Nat.le_of_eq (congrFun (put_marks hf s i v).symm j), fun _ hj => ?_⟩
    change s.marks j % 2 = 0 at hj
    have hji : j ≠ i := by
      rintro rfl
      omega
    exact put_slot_of_ne hji s f v
  marks_le j := by
    rw [put_marks hf]
    exact le_succ _

theorem put_version_step (hi : s.lock i = some me) {v : Nat} (hv : v = (s.marks i + 1) % U64)
    (hleg : (s.marks i + 1) % 2 = 0 → Legit W r i (s.slot i)) :
    CacheStep me W r s (s.put i .version v) where
  sound hs := by
    refine ⟨fun j => ?_, fun j hj => ?_, fun j hj => ?_⟩
    all_goals by_cases hji : j = i
    · subst hji
      simp [hv]
    · rw [put_slot_of_ne hji, put_version_marks, update_of_ne hji]
      exact hs.version j
    · subst hji
      simp [hi]
    · rw [put_version_marks, update_of_ne hji] at hj
      exact hs.held j hj
    · subst hji
      rw [put_version_marks, update_self] at hj
      rw [Legit, put_slot_self, Raw.entry_update_version]
      exact hleg hj
    · rw [put_version_marks, update_of_ne hji] at hj
      rw [put_slot_of_ne hji]
      exact hs.legit j hj
  frame j hj := by
    have hji : j ≠ i := by
      rintro rfl
      exact hj hi
    rw [put_slot_of_ne hji, put_version_marks, update_of_ne hji]
    exact ⟨rfl, rfl⟩
  locks _ := .inl rfl
  grows j := by
    by_cases hji : j = i
    · subst hji
      simp [Grows]
    · simp [Grows, hji, put_slot_of_ne hji]
  marks_le j := by
    by_cases hji : j = i
    · subst hji
      simp
    · simp [hji]

theorem stores_append (i : Nat) (ws ws' : List (Field × Nat)) :
    stores i (ws ++ ws') = (stores i ws).bind fun _ => stores i ws' := by
  induction ws with
  | nil => rfl
  | cons w ws ih => simp only [List.cons_append, stores, ih, bind_atom]

theorem stores_valid {ws : List (Field × Nat)} (hws : ∀ w ∈ ws, w.1 ≠ .version) {raw : Raw}
    {c : Nat} (hc : c % 2 = 1) (h : Mine me i raw c s) :
    (stores i ws).Valid (CacheRely me W r X) (CacheStep me W r)
      (fun _ s' => Mine me i (apply raw ws) c s') s := by
  induction ws generalizing s raw with
  | nil => exact h
  | cons w ws ih =>
    obtain ⟨hw, hws⟩ := List.forall_mem_cons.1 hws
    refine valid_atom fun s₁ h₁ => ?_
    obtain ⟨hl, hs, hm⟩ := h.rely h₁
    refine ⟨put_step hw hl (hm ▸ hc) _, ih hws ⟨hl, ?_, ?_⟩⟩
    · rw [put_slot_self, hs]
    · rw [put_marks hw, hm]

theorem or_one_of_even {n : Nat} (h : n % 2 = 0) : n ||| 1 = n + 1 := by
  have hor := two_pow_add_eq_or_of_lt (i := 1) (b := 1) (by decide) (n / 2)
  rw [Nat.pow_one, Nat.mul_div_cancel' (dvd_of_mod_eq_zero h)] at hor
  exact hor.symm

theorem marker_odd {c : Nat} (hc : c % 2 = 0) : c % U64 ||| 1 = (c + 1) % U64 := by
  rw [U64, or_one_of_even (by omega)]
  omega

/-- **An update of a slot**, under its lock: the caller finds the version even, and leaves it even
over what its stores make of the slot. -/
theorem writing_valid {ws : List (Field × Nat)} (hws : ∀ w ∈ ws, w.1 ≠ .version) {raw : Raw}
    {c : Nat} (hc : c % 2 = 0) (h : Mine me i raw c s) (hleg : Legit W r i (apply raw ws)) :
    (writing i ws).Valid (CacheRely me W r X) (CacheStep me W r)
      (fun _ s' => s'.lock i = some me ∧ s'.marks i % 2 = 0) s := by
  refine valid_read (CacheStep.refl me W r) fun s₁ h₁ => ?_
  have hmine₁ := h.rely h₁
  have hver : s₁.slot i .version = c % U64 := by rw [h₁.sound.version i, hmine₁.2.2]
  have hodd : s₁.slot i .version ||| 1 = (c + 1) % U64 := hver ▸ marker_odd hc
  rw [marked, stores]
  refine valid_atom fun s₂ h₂ => ?_
  obtain ⟨hl₂, hs₂, hm₂⟩ := hmine₁.rely h₂
  refine ⟨put_version_step hl₂ (by rw [hodd, hm₂]) (fun h => by omega), ?_⟩
  rw [stores_append]
  have hmine₃ : Mine me i (update raw .version (s₁.slot i .version ||| 1)) (c + 1)
      (s₂.put i .version (s₁.slot i .version ||| 1)) := by
    refine ⟨hl₂, ?_, ?_⟩
    · rw [put_slot_self, hs₂]
    · rw [put_version_marks, update_self, hm₂]
  refine Valid.bind ((stores_valid hws (by omega) hmine₃).post
    fun _ s₄ hmine₄ => ?_)
  refine valid_atom fun s₅ h₅ => ?_
  obtain ⟨hl₅, hs₅, hm₅⟩ := hmine₄.rely h₅
  refine ⟨put_version_step hl₅ ?_ fun _ => ?_, hl₅, ?_⟩
  · rw [hodd, hm₅, u64Add]
    exact mod_add_mod ..
  · rw [hs₅, Legit, Raw.entry_apply_update_version]
    exact hleg
  · rw [put_version_marks, update_self, hm₅]
    omega

/-! ## Reads -/

theorem atSlot_valid {α : Type} (p : Reads Field Nat α) {raw : Raw} {c : Nat}
    (h : Mine me i raw c s) : (atSlot i p).Valid (CacheRely me W r X) (CacheStep me W r)
      (fun a s' => Mine me i raw c s' ∧ a = p.eval raw) s :=
  Reads.valid_stable (CacheStep.refl me W r) (fun _ _ hr h => h.rely hr) (fun _ h => h.2.1) p h

theorem Versioned.even_of_free (hs : Versioned W r s) (hi : s.lock i = none) :
    s.marks i % 2 = 0 := by
  by_contra hodd
  exact hs.held i (by omega) hi

section
variable {key : Bytes} {h now : Nat} {Bad : Nat → Bytes → Prop}

/-- In the states of `X` no slot shows the reader a value that is `Bad` for it, and no version is
seen twice. -/
structure Refutes (r : Region) (key : Bytes) (h now : Nat) (X : Cache → Prop)
    (Bad : Nat → Bytes → Prop) : Prop where
  look : ∀ i v, Bad i v → ∀ s, X s → s.marks i % 2 = 0 → (s.slot i).look r key h now ≠ .hit v
  marks : ∀ i v, Bad i v → ∀ s s', X s → X s' → s'.marks i % U64 = s.marks i % U64 →
    s'.marks i = s.marks i

/-- **A peek** that believes what it loaded saw the slot as it was at the first sample. -/
theorem peek_valid (hX : Refutes r key h now X Bad) :
    (peek r i key h now).Valid (CacheRely me W r X) (CacheStep me W r)
      (fun p _ => ∀ v, p = .seen (.hit v) → ¬ Bad i v) s := by
  refine valid_read (CacheStep.refl me W r) fun s₁ h₁ => ?_
  split
  · intro v hv
    cases hv
  · rename_i hver
    have heven : s₁.marks i % 2 = 0 := by
      rw [h₁.sound.version i, and_one_is_mod, U64] at hver
      omega
    have hloads := Reads.valid_seqlock (CacheStep.refl me W r)
      (fun _ _ (hr : CacheRely me W r X _ _) => hr.grows i) (peekLook r key h now) heven
    refine Valid.bind (hloads.weaken (fun _ _ => id) (fun _ _ => id) fun l s₂ h₂ => ?_)
    refine valid_read (CacheStep.refl me W r) fun s₃ h₃ v hv hbad => ?_
    split at hv
    · cases hv
    · rename_i hsame
      have hmarks : s₃.marks i = s₁.marks i := by
        refine hX.marks i v hbad s₁ s₃ h₁.inside h₃.inside ?_
        rw [← h₃.sound.version i, ← h₁.sound.version i]
        exact not_not.1 hsame
      have hl := h₂.2 (Nat.le_antisymm (Nat.le_trans (h₃.grows i).1 (Nat.le_of_eq hmarks)) h₂.1)
      cases hv
      exact hX.look i v hbad s₁ h₁.inside heven ((hl.trans (peekLook_eval ..)).symm)

theorem attempts_valid (hX : Refutes r key h now X Bad) (n : Nat) :
    (attempts r i key h now n).Valid (CacheRely me W r X) (CacheStep me W r)
      (fun p _ => ∀ v, p = .seen (.hit v) → ¬ Bad i v) s := by
  induction n generalizing s with
  | zero =>
    intro v hv
    cases hv
  | succ n ih =>
    refine Valid.bind ((peek_valid hX).post fun p s' hp => ?_)
    cases p with
    | torn => exact ih
    | seen l => exact hp

/-- **One slot**: lock-free or under the lock, a value that is found was in the slot. -/
theorem lookAt_valid (hX : Refutes r key h now X Bad) (tries : Nat) :
    (lookAt r me tries i key h now).Valid (CacheRely me W r X) (CacheStep me W r)
      (fun o _ => ∀ v, o = some (.hit v) → ¬ Bad i v) s := by
  refine Valid.bind ((attempts_valid hX _).post fun p s' hp => ?_)
  cases p with
  | seen l =>
    intro v hv
    cases hv
    exact hp v rfl
  | torn =>
    refine (locked_valid (Q := fun l => ∀ v, l = .hit v → ¬ Bad i v) tries
      fun s₀ hs hXs hfree => ?_).post fun o _ ho v hv =>
        ho _ hv v rfl
    have heven := hs.even_of_free hfree
    have hmine : Mine me i (s₀.slot i) (s₀.marks i) (s₀.setLock i (some me)) :=
      ⟨update_self .., rfl, rfl⟩
    refine (atSlot_valid _ hmine).post fun l s' hl => ?_
    refine ⟨⟨hl.1.1, hl.1.2.2 ▸ heven⟩, fun v hv hbad => hX.look i v hbad s₀ hXs heven ?_⟩
    rw [← hv, hl.2, lockedLook_eval]

theorem legit_tombstone (raw : Raw) : Legit W r i (apply raw [(.state, 2)]) := by
  rw [Legit, entry_state]
  intro hocc
  cases hocc

theorem reclaim_valid (tries : Nat) :
    (locked me tries i (reclaim i key h now)).Valid (CacheRely me W r X) (CacheStep me W r)
      (fun _ _ => True) s := by
  refine (locked_valid (Q := fun _ => True) tries fun s₀ hs _ hfree => ?_).post
    fun _ _ _ => trivial
  have heven := hs.even_of_free hfree
  have hmine : Mine me i (s₀.slot i) (s₀.marks i) (s₀.setLock i (some me)) :=
    ⟨update_self .., rfl, rfl⟩
  refine Valid.bind ((atSlot_valid _ hmine).post
    fun gone s' hgone => ?_)
  cases gone with
  | false => exact ⟨⟨hgone.1.1, hgone.1.2.2 ▸ heven⟩, trivial⟩
  | true =>
    exact (writing_valid (by simp) heven hgone.1 (legit_tombstone _)).post
      fun _ _ hend => ⟨hend, trivial⟩

/-- **`get`**: a value that is returned was in the slot it is returned with. -/
theorem getSlots_valid (hX : Refutes r key h now X Bad) (tries : Nat) (w : List Nat) :
    (getSlots r me tries key h now w).Valid (CacheRely me W r X) (CacheStep me W r)
      (fun o _ => ∀ i v, o = some (some (i, v)) → ¬ Bad i v) s := by
  induction w generalizing s with
  | nil =>
    intro i v hv
    cases hv
  | cons j w ih =>
    refine Valid.bind ((lookAt_valid hX tries).post
      fun o s' ho => ?_)
    rcases o with _ | _ | _ | _ | v
    · intro i v hv
      cases hv
    · intro i v hv
      cases hv
    · exact ih
    · refine Valid.map _ ((reclaim_valid tries).post ?_)
      rintro (_ | _) _ _ i v hv
      · cases hv
      · cases hv
    · intro i v' hv
      cases hv
      exact ho v rfl

end

theorem update_valid (tries : Nat) {ws : List (Field × Nat)} (hws : ∀ w ∈ ws, w.1 ≠ .version)
    (hleg : ∀ raw, Legit W r i raw → Legit W r i (apply raw ws)) :
    (locked me tries i (writing i ws)).Valid (CacheRely me W r X) (CacheStep me W r)
      (fun _ _ => True) s := by
  refine (locked_valid (Q := fun _ => True) tries fun s₀ hs _ hfree => ?_).post
    fun _ _ _ => trivial
  have heven := hs.even_of_free hfree
  have hmine : Mine me i (s₀.slot i) (s₀.marks i) (s₀.setLock i (some me)) :=
    ⟨update_self .., rfl, rfl⟩
  exact (writing_valid hws heven hmine (hleg _ (hs.legit i heven))).post fun _ _ hend =>
    ⟨hend, trivial⟩

end

end Askr.Kv
