import Askr.Rcache.Lookup

/-!
# The response cache as a map

What the table is for: a map from keys to pages. A `Book` is that map, kept beside the table through
a run (`traced`): a store enters its page and strikes out the page whose slot it took, a lookup
strikes out a page it finds expired or invalidated, and a removal the pages it is meant for
(`Op.drops`).

`Held` says that the live slots of a key's hash hold what the book has for the key. Every operation
that cuts no chain keeps it (`Held.step`), so a lookup answers from the book (`Held.peekIn_eq`).
`lookup_invariant` says which runs keep the lookup invariant, in both directions;
`flush_brings_back_an_old_page` is a run on the other side.
-/

namespace Askr.Rcache

open Askr.Ns Probe Option Run Bytes

/-! ## Operations that cut chains -/

/-- Does the operation empty a slot in front of a live one that it leaves? -/
def Op.cuts (c : Cache) : Op → Prop
  | .flushApp a => Cuts c (dropApp a)
  | .restart slots saved stamp stamp' now =>
    restores c slots saved stamp stamp' ∧ Cuts c (dropExpired now)
  | _ => False

theorem not_cuts_buryWanted (c : Cache) (want : Bytes → Bool) : ¬ Cuts c (buryWanted want) := by
  rintro ⟨h, i, -, -, j, -, hj⟩
  unfold buryWanted at hj
  split at hj <;> cases hj

/-- An operation that cuts no chain keeps soundness. -/
theorem Sound.step {c : Cache} (hc : Sound c) (hasher : Hasher) {op : Op} (hcut : ¬ op.cuts c) :
    Sound (step hasher c op) := by
  cases op with
  | store key page now => exact hc.store hasher key page now
  | peek key now => exact hc.peek hasher key now
  | forgetTag tag => exact hc
  | purgeUrl | banGlob => exact hc.sweep (buryWanted_ne _) (not_cuts_buryWanted c _)
  | flushApp a => exact hc.sweep (dropApp_ne a) hcut
  | flushAll =>
    refine hc.sweep (by simp) ?_
    rintro ⟨h, i, -, hnone, -⟩
    cases hnone
  | restart slots saved stamp stamp' now =>
    simp only [Rcache.step]
    rw [restart_eq]
    split
    · rename_i hr
      exact hc.sweep (dropExpired_ne now) fun h => hcut ⟨hr, h⟩
    · exact sound_init slots

theorem not_cuts_of_step {hasher : Hasher} {c : Cache} {op : Op}
    (h : LookupInv (step hasher c op)) : ¬ op.cuts c := by
  cases op with
  | flushApp a => exact not_cuts_of_lookupInv (dropApp_ne a) h
  | restart slots saved stamp stamp' now =>
    rintro ⟨hr, hcut⟩
    simp only [step] at h
    rw [restart_eq, if_pos hr] at h
    exact not_cuts_of_lookupInv (dropExpired_ne now) h hcut
  | store | peek | forgetTag | purgeUrl | banGlob | flushAll => exact id

/-- The lookup invariant holds in every state of a run exactly when no operation of it cuts a
chain. -/
theorem lookupInv_iff_not_cuts (hasher : Hasher) {c : Cache} (hc : Sound c) (ops : List Op) :
    (∀ ops', ops' <+: ops → LookupInv (runs (step hasher) c ops')) ↔
      Run.Along (step hasher) (fun c op => ¬ op.cuts c) c ops := by
  constructor
  · intro h
    induction ops generalizing c with
    | nil => trivial
    | cons op ops ih =>
      have hcut : ¬ op.cuts c := not_cuts_of_step (h [op] ⟨ops, rfl⟩)
      refine ⟨hcut, ih (hc.step hasher hcut) fun ops' hp => ?_⟩
      exact h (op :: ops') (List.cons_prefix_cons.2 ⟨rfl, hp⟩)
  · intro h ops' hp
    exact ((h.of_prefix hp).inv (fun _ _ hcut hs => hs.step hasher hcut) hc).lookupInv

/-! ## The book -/

/-- The pages that are stored, by key. -/
abbrev Book := Bytes → Option Entry

/-- A page that may be served. -/
def Entry.valid (e : Entry) (tag : Nat → TagGen) (now : Nat) : Bool :=
  !(e.expired now || e.tagInvalid tag)

/-- The pages a removal is meant for. -/
def Op.drops (c : Cache) : Op → Entry → Bool
  | .purgeUrl host path query, e => wantUrl host (wantPq path query) e.key
  | .banGlob host pattern, e => wantUrl host (wantPath pattern) e.key
  | .flushApp a, e => e.app = some a
  | .flushAll, _ => true
  | .restart slots saved stamp stamp' now, e =>
    !restores c slots saved stamp stamp' || e.expired now
  | _, _ => false

/-- Does a store under `key` take the slot of the page of `k`? -/
def evicts (hasher : Hasher) (c : Cache) (key k : Bytes) : Bool :=
  (c.entry (storeSlot hasher c key)).state = .occupied &&
    (c.entry (storeSlot hasher c key)).keyHash = hashBytes hasher k

def Book.step (hasher : Hasher) (c : Cache) (b : Book) : Op → Book
  | .store key page now, k =>
    if page.fits then
      if k = key then some (writeEntry hasher c.tag key page now)
      else if evicts hasher c key k then none else b k
    else b k
  | .peek key now, k => if k = key then (b k).filter (·.valid c.tag now) else b k
  | op, k => (b k).filter fun e => !op.drops c e

def traced (hasher : Hasher) (s : Cache × Book) (op : Op) : Cache × Book :=
  (step hasher s.1 op, Book.step hasher s.1 s.2 op)

/-- The book after a run from the zeroed table. -/
def bookAfter (hasher : Hasher) (slots : Nat) (ops : List Op) : Book :=
  (runs (traced hasher) (.init slots, fun _ => none) ops).2

/-- The live slots of a key's hash hold what the book has for the key. -/
def Held (hasher : Hasher) (k : Bytes) (c : Cache) (b : Book) : Prop :=
  ∀ e, b k = some e ↔ ∃ i, Live c (hashBytes hasher k) i ∧ c.entry i = e

def Op.key : Op → Option Bytes
  | .store key _ _ => some key
  | .peek key _ => some key
  | _ => none

/-- No key the operation hashes collides with `k`. -/
def Op.Apart (hasher : Hasher) (k : Bytes) (op : Op) : Prop :=
  ∀ key, op.key = some key → hashBytes hasher key = hashBytes hasher k → key = k

section
variable {hasher : Hasher} {k : Bytes} {c : Cache} {b : Book}

/-- A sweep that removes the live slots of the pages it is meant for. -/
theorem Held.sweep (hb : Held hasher k c b) {m : Entry → Option SlotState} {drop : Entry → Bool}
    (hm : ∀ e, m e ≠ some .occupied)
    (hdrop : ∀ e, e.state = .occupied → (m e = none ↔ drop e = false)) {b' : Book}
    (hb' : b' k = (b k).filter fun e => !drop e) : Held hasher k (c.sweep m).1 b' := by
  intro e
  rw [hb', filter_eq_some_iff, hb e]
  constructor
  · rintro ⟨⟨i, hi, rfl⟩, hd⟩
    have hnone := (hdrop _ hi.2.1).2 (by simpa using hd)
    exact ⟨i, (live_sweep hm).2 ⟨hi, hnone⟩, sweep_entry_left hi.1 hnone⟩
  · rintro ⟨i, hi, rfl⟩
    obtain ⟨hlive, hnone⟩ := (live_sweep hm).1 hi
    rw [sweep_entry_left hlive.1 hnone]
    exact ⟨⟨i, hlive, rfl⟩, by simpa using (hdrop _ hlive.2.1).1 hnone⟩

theorem live_set {h i j : Nat} {e : Entry} (he : ¬ (e.state = .occupied ∧ e.keyHash = h)) :
    Live (c.set j e) h i ↔ Live c h i ∧ i ≠ j := by
  by_cases hij : i = j
  · simp [Live, hij, he]
  · simp [Live, hij]

/-- A store: the page under its own key, and the page whose slot it took. -/
theorem Held.store (hc : Sound c) (hb : Held hasher k c b) {key : Bytes} {page : Page} {now : Nat}
    (hap : hashBytes hasher key = hashBytes hasher k → key = k) :
    Held hasher k (step hasher c (.store key page now))
      (Book.step hasher c b (.store key page now)) := by
  have hs := hc.store hasher key page now
  simp only [Rcache.step]
  by_cases hfit : page.fits
  swap
  · simpa [Held, Rcache.store, Book.step, hfit] using hb
  have hlt := Cache.lt_of_mem_probe (storeSlot_spec hasher c key).1
  simp only [Rcache.store, hfit, if_true] at hs ⊢
  intro e
  by_cases hk : k = key
  · subst hk
    have hlive : Live (c.set (storeSlot hasher c k) (writeEntry hasher c.tag k page now))
        (hashBytes hasher k) (storeSlot hasher c k) := by
      simp [Live, hlt, writeEntry]
    simp only [Book.step, hfit, if_true, Option.some.injEq]
    constructor
    · rintro rfl
      exact ⟨_, hlive, by simp⟩
    · rintro ⟨i, hi, rfl⟩
      rw [hs.unique hi hlive]
      simp
  · have hne : ¬ hashBytes hasher key = hashBytes hasher k := fun h => hk (hap h).symm
    simp only [Book.step, hfit, if_true, if_neg hk, Cache.set_entry,
      live_set (e := writeEntry hasher c.tag key page now) fun h => hne h.2]
    split
    · rename_i hev
      simp only [evicts, Bool.and_eq_true, decide_eq_true_eq] at hev
      constructor
      · rintro ⟨⟩
      · rintro ⟨i, ⟨hi, hir⟩, -⟩
        exact absurd (hc.unique hi ⟨hlt, hev⟩) hir
    · rename_i hev
      rw [hb e]
      constructor
      · rintro ⟨i, hi, rfl⟩
        have hir : i ≠ storeSlot hasher c key := by
          rintro rfl
          exact hev (by simpa [evicts] using hi.2)
        exact ⟨i, ⟨hi, hir⟩, Function.update_of_ne hir _ _⟩
      · rintro ⟨i, ⟨hi, hir⟩, rfl⟩
        exact ⟨i, hi, (Function.update_of_ne hir _ _).symm⟩

theorem live_mark {h i j : Nat} : Live (c.mark j .tombstone) h i ↔ Live c h i ∧ i ≠ j :=
  live_set (by simp)

theorem Held.peekIn_eq (hc : Sound c) (hb : Held hasher k c b) (now : Nat) :
    (b k = none ∧ peekIn c (hashBytes hasher k) now (c.probe (hashBytes hasher k)) = (c, none)) ∨
      ∃ i, Live c (hashBytes hasher k) i ∧ b k = some (c.entry i) ∧
        peekIn c (hashBytes hasher k) now (c.probe (hashBytes hasher k)) =
          if (c.entry i).valid c.tag now then (c, some i) else (c.mark i .tombstone, none) := by
  cases hbk : b k with
  | none =>
    refine .inl ⟨rfl, peekIn_of_not_live (fun i hi => ?_) now⟩
    have := (hb (c.entry i)).2 ⟨i, hi, rfl⟩
    rw [hbk] at this
    cases this
  | some e =>
    obtain ⟨i, hi, rfl⟩ := (hb e).1 hbk
    refine .inr ⟨i, hi, rfl, ?_⟩
    rw [hc.peekIn_live hi, Entry.valid]
    cases (c.entry i).expired now || (c.entry i).tagInvalid c.tag <;> rfl

theorem Held.peek (hc : Sound c) (hb : Held hasher k c b) {key : Bytes} {now : Nat}
    (hap : hashBytes hasher key = hashBytes hasher k → key = k) :
    Held hasher k (step hasher c (.peek key now)) (Book.step hasher c b (.peek key now)) := by
  intro e
  simp only [Rcache.step, Rcache.peek, peekSlot, Book.step]
  by_cases hk : k = key
  · subst hk
    rw [if_pos rfl]
    rcases hb.peekIn_eq hc now with ⟨hbk, hp⟩ | ⟨i, hi, hbk, hp⟩
    · rw [hp, hbk, ← hb e, hbk]
      rfl
    · rw [hp, hbk]
      split
      · rename_i hval
        rw [filter_some, if_pos hval, ← hbk]
        exact hb e
      · rename_i hval
        rw [filter_some, if_neg hval]
        constructor
        · rintro ⟨⟩
        · rintro ⟨j, hj, -⟩
          exact absurd (hc.unique (live_mark.1 hj).1 hi) (live_mark.1 hj).2
  · rw [if_neg hk, hb e]
    rcases peekIn_table c (hashBytes hasher key) now (c.probe (hashBytes hasher key)) with
      hp | ⟨j, -, hp, -, -, hkey, -⟩
    · rw [hp]
    · rw [hp]
      have hj : ∀ i, Live c (hashBytes hasher k) i → i ≠ j := by
        rintro i hi rfl
        exact hk (hap (hkey.symm.trans hi.2.2)).symm
      constructor
      · rintro ⟨i, hi, rfl⟩
        exact ⟨i, live_mark.2 ⟨hi, hj i hi⟩, by simp [hj i hi]⟩
      · rintro ⟨i, hi, rfl⟩
        obtain ⟨hi, hij⟩ := live_mark.1 hi
        exact ⟨i, hi, by simp [hij]⟩

/-- **The table holds the book.** An operation that cuts no chain and hashes no key that collides
with `k` keeps the page of `k` in its live slot. -/
theorem Held.step (hc : Sound c) (hb : Held hasher k c b) {op : Op} (hap : op.Apart hasher k) :
    Held hasher k (step hasher c op) (Book.step hasher c b op) := by
  cases op with
  | store key page now => exact hb.store hc (hap key rfl)
  | peek key now => exact hb.peek hc (hap key rfl)
  | forgetTag tag =>
    intro e
    refine Iff.trans ?_ (hb e)
    simp [Book.step, Op.drops]
  | purgeUrl host path query =>
    refine hb.sweep (buryWanted_ne _) (fun e he => ?_) rfl
    simp [buryWanted, he, Op.drops]
  | banGlob host pattern =>
    refine hb.sweep (buryWanted_ne _) (fun e he => ?_) rfl
    simp [buryWanted, he, Op.drops]
  | flushApp a =>
    refine hb.sweep (dropApp_ne a) (fun e _ => ?_) rfl
    simp [dropApp, Op.drops]
  | flushAll => exact hb.sweep (by simp) (fun e _ => by simp [Op.drops]) rfl
  | restart slots saved stamp stamp' now =>
    simp only [Rcache.step]
    rw [restart_eq]
    split
    · rename_i hr
      refine hb.sweep (dropExpired_ne now) (fun e he => ?_) rfl
      simp [dropExpired, he, Op.drops, hr]
    · rename_i hr
      intro e
      simp [Book.step, Op.drops, hr, Live, Cache.init, Entry.zeroed]

end

/-! ## Runs -/

theorem held_bookAfter {hasher : Hasher} {slots : Nat} {ops : List Op}
    (hrun : Run.Along (step hasher) (fun c op => ¬ op.cuts c) (.init slots) ops) {k : Bytes}
    (hap : ∀ op ∈ ops, op.Apart hasher k) : let c := runs (step hasher) (.init slots) ops
    Sound c ∧ Held hasher k c (bookAfter hasher slots ops) := by
  have hlift : ∀ (s : Cache × Book) (op : Op), (traced hasher s op).1 = step hasher s.1 op :=
    fun _ _ => rfl
  have hstart : Held hasher k (.init slots) fun _ => none := by
    intro e
    simp [Live, Cache.init, Entry.zeroed]
  have hend := (Run.Along.lift (t := (Cache.init slots, fun _ => none)) hlift hrun |>.and_mem
    hap).inv (I := fun s => Sound s.1 ∧ Held hasher k s.1 s.2)
    (fun s op hC hI => ⟨hI.1.step hasher hC.1, hI.2.step hI.1 hC.2⟩) ⟨sound_init slots, hstart⟩
  rw [runs_lift hlift] at hend
  exact hend

/-- **The lookup invariant.** The table keeps it through a run exactly when no operation empties a
slot in front of a live one it leaves. Along such a run a lookup of a key whose hash no other key of
the run shares returns the page last stored for it, unless that was removed or evicted or is not
valid any more. -/
theorem lookup_invariant (hasher : Hasher) (slots : Nat) (ops : List Op) :
    ((∀ ops', ops' <+: ops → LookupInv (runs (step hasher) (.init slots) ops')) ↔
      Run.Along (step hasher) (fun c op => ¬ op.cuts c) (.init slots) ops) ∧
    (Run.Along (step hasher) (fun c op => ¬ op.cuts c) (.init slots) ops →
      ∀ k now, (∀ op ∈ ops, op.Apart hasher k) → let c := runs (step hasher) (.init slots) ops
        (peek hasher c k now).2 =
          ((bookAfter hasher slots ops k).filter (·.valid c.tag now)).map (·.cached now)) := by
  refine ⟨lookupInv_iff_not_cuts hasher (sound_init slots) ops, fun hrun k now hap => ?_⟩
  obtain ⟨hs, hb⟩ := held_bookAfter hrun hap
  simp only [peek, peekSlot]
  rcases hb.peekIn_eq hs now with ⟨hbk, hp⟩ | ⟨i, hi, hbk, hp⟩
  · rw [hp, hbk]
    rfl
  · rw [hp, hbk, filter_some]
    split <;> rfl

/-- Two pages with one home slot, in a run that cuts no chain: the book is what is served. -/
theorem lookup_invariant_two_stores :
    (peek bytesHash (runs (step bytesHash) (.init 16) collidingStores) (ofString "k3")
      0).2 = ((bookAfter bytesHash 16 collidingStores (ofString "k3")).filter
        (·.valid (runs (step bytesHash) (.init 16) collidingStores).tag 0)).map
          (·.cached 0) := by
  refine (lookup_invariant bytesHash 16 collidingStores).2 ⟨id, id, trivial⟩ (ofString "k3") 0
    fun op hop key hkey hh => ?_
  simp only [collidingStores, List.mem_cons, List.not_mem_nil, or_false] at hop
  rcases hop with rfl | rfl
  · cases hkey
    exact absurd hh (by decide)
  · cases hkey
    rfl

/-! ## A flush that brings an old page back -/

/-- A page of `appB` under a tag. -/
def taggedPage (body : String) : Page :=
  { pageOf appB body with tags := [ofString "t"] }

/-- The page of `appA` is in front of the first page of `appB`. -/
def oldPageRun : List Op :=
  [.store (ofString "k2") (pageOf appA "a") 0,
    .store (ofString "k3") (pageOf appB "old") 0,
    .flushApp appA,
    .store (ofString "k3") (taggedPage "new") 0,
    .forgetTag (ofString "t"),
    .peek (ofString "k3") 0]

/-- **A flush brings an old page back.** The flush of `appA` hides the page of `appB`, so the next
store under its key takes the emptied slot and both are live. When the new page is invalidated, the
lookup that finds it leaves a tombstone, and the one after that walks on to the old page. -/
theorem flush_brings_back_an_old_page :
    ¬ (∀ slots ops, LookupInv (runs (step bytesHash) (.init slots) ops)) ∧
      (peek bytesHash (runs (step bytesHash) (.init 16) oldPageRun)
        (ofString "k3") 0).2.map (·.body) = some (ofString "old") ∧
      (bookAfter bytesHash 16 oldPageRun (ofString "k3")).isNone := by
  refine ⟨fun h => ?_, by decide, by decide⟩
  have htwice := (h 16 (oldPageRun.take 4)).unique (hashBytes bytesHash (ofString "k3")) 14 15
    ⟨by decide, by decide, by decide⟩
    ⟨by decide, by decide, by decide⟩
  cases htwice

end Askr.Rcache
