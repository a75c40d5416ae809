import Askr.Kv.Seq

/-!
# The cache is a map

What the two regions hold under a key is a pair of values with their deadlines, one for each region
at most (`Shelf`). As long as the window of its key has a free slot, a call does to the shelf of its
key what the same call does on a map (`Shelf.serve`), returns what that returns, and leaves the
shelf of every other key alone: `code_serves`.

`flush_app` walks every slot of both regions, and takes the shelves of the keys that start with the
bytes of the application (`flushApp_shelf`).
-/

namespace Askr.Kv

open Conc Prog Probe Option List

/-! ## Shelves -/

/-- A value with its deadline. -/
structure Held where
  val : Bytes
  expiresAt : Nat

def Held.expired (e : Held) (now : Nat) : Bool := e.expiresAt ≠ 0 && e.expiresAt < now

/-- What the cache holds under one key. -/
abbrev Shelf := Region → Option Held

def Entry.held (e : Entry) : Held := ⟨e.val, e.expiresAt⟩

@[simp] theorem Entry.held_expired (e : Entry) (now : Nat) :
    e.held.expired now = e.expired now := rfl

def Mem.shelf (g : Config) (s : Mem) (key : Bytes) : Shelf := fun r =>
  ((g.window r (g.hash key)).find? fun i => (s.entry r i).matches key (g.hash key)).map fun i =>
    (s.entry r i).held

/-! ## The functions of a map -/

namespace Shelf

section
variable (g : Config) (r : Region) (now : Nat) (m : Shelf)

/-- What is in the region is replaced. -/
def put (o : Option Held) : Shelf := Function.update m r o

/-- `Region::get`, of a map. -/
def getAt : Shelf × Option Bytes :=
  match m r with
  | none => (m, none)
  | some e => if e.expired now then (m.put r none, none) else (m, some e.val)

/-- `Region::delete`. -/
def deleteAt : Shelf × Bool := (m.put r none, (m r).isSome)

/-- `Region::set`. -/
def setAt (val : Bytes) (ttl : Nat) : Shelf × Bool :=
  if g.slots r = 0 then (m, false)
  else if val.length > r.valMax then (m, false)
  else (m.put r (some ⟨val, deadline now ttl⟩), true)

/-- `Region::add`. -/
def addAt (val : Bytes) (ttl : Nat) : Shelf × Bool :=
  if g.slots r = 0 then (m, false)
  else if val.length > r.valMax then (m, false)
  else if (m r).all (·.expired now) then (m.put r (some ⟨val, deadline now ttl⟩), true)
  else (m, false)

/-- `Region::touch`. -/
def touchAt (ttl : Nat) : Shelf × Bool :=
  match m r with
  | none => (m, false)
  | some e =>
    if e.expired now then (m.put r none, false)
    else (m.put r (some { e with expiresAt := deadline now ttl }), true)

/-- What `Region::increment` leaves where it is not refused. -/
def counted (delta : Int) (ttl : Nat) : Option Held → Int × Nat
  | none => (delta, deadline now ttl)
  | some e =>
    if e.expired now then (satAddI64 0 delta, deadline now ttl)
    else (satAddI64 (counterOf e.val) delta, e.expiresAt)

/-- `Region::increment`. -/
def incrementAt (delta : Int) (ttl : Nat) : Shelf × Int :=
  if g.slots r = 0 then (m, 0)
  else
    let next := counted now delta ttl (m r)
    (m.put r (some ⟨Bytes.intBytes next.1, next.2⟩), next.1)

end

section
variable (g : Config) (now : Nat) (m : Shelf)

def get : Shelf × Option Bytes :=
  if (getAt .small now m).2.isSome then getAt .small now m
  else getAt .large now (getAt .small now m).1

def set (val : Bytes) (ttl : Nat) : Shelf × Bool :=
  if val.length ≤ VAL_SMALL then setAt g .small now (deleteAt .large m).1 val ttl
  else if val.length ≤ VAL_LARGE then setAt g .large now (deleteAt .small m).1 val ttl
  else (m, false)

def add (val : Bytes) (ttl : Nat) : Shelf × Bool :=
  if (getAt .large now m).2.isSome then ((getAt .large now m).1, false)
  else addAt g .small now (getAt .large now m).1 val ttl

def delete : Shelf × Bool :=
  let m' := (deleteAt .small m).1
  ((deleteAt .large m').1, (deleteAt .small m).2 || (deleteAt .large m').2)

def touch (ttl : Nat) : Shelf × Bool :=
  if (touchAt .small now m ttl).2 then touchAt .small now m ttl
  else touchAt .large now (touchAt .small now m ttl).1 ttl

/-- A request, on the shelf of its key. All but `delete` look at the length of the key, and `add` at
that of the value. -/
def serve (key : Bytes) : Req → Shelf × Res
  | .get =>
    if key.length > KEY_MAX then (m, .value none) else ((get now m).1, .value (get now m).2)
  | .set val ttl =>
    if key.length > KEY_MAX then (m, .flag false)
    else ((set g now m val ttl).1, .flag (set g now m val ttl).2)
  | .add val ttl =>
    if key.length > KEY_MAX ∨ val.length > VAL_SMALL then (m, .flag false)
    else ((add g now m val ttl).1, .flag (add g now m val ttl).2)
  | .delete => ((delete m).1, .flag (delete m).2)
  | .touch ttl =>
    if key.length > KEY_MAX then (m, .flag false)
    else ((touch now m ttl).1, .flag (touch now m ttl).2)
  | .increment delta ttl =>
    if key.length > KEY_MAX then (m, .count 0)
    else ((incrementAt g .small now m delta ttl).1,
      .count (incrementAt g .small now m delta ttl).2)

end

end Shelf

/-! ## Reading the shelf -/

variable {g : Config} {r : Region} {key k : Bytes} {s s' : Mem} {o : Option Nat} {i : Nat}

theorem Sound.shelf_eq (hs : Sound g r s) (ho : At g r key s o) :
    s.shelf g key r = o.map fun i => (s.entry r i).held := by
  rw [Mem.shelf]
  cases o with
  | none =>
    simp [ho.no_match]
  | some i =>
    have hmem := (hs.place key i ho).2.1
    cases hf : (g.window r (g.hash key)).find? fun i => (s.entry r i).matches key (g.hash key) with
    | none => exact absurd ho (find?_eq_none.1 hf i hmem)
    | some j =>
      have hj := find?_some hf
      rw [hs.unique key j i hj ho]

theorem shelf_congr (he : s'.entry r = s.entry r) : s'.shelf g k r = s.shelf g k r := by
  simp only [Mem.shelf, he]

theorem shelf_put_of_not {e : Entry} (h : ¬ HasAt g r k s i)
    (he : e.matches k (g.hash k) = false) : (s.put r i e).shelf g k r = s.shelf g k r := by
  have hsame : ∀ j, ((s.put r i e).entry r j).matches k (g.hash k) =
      (s.entry r j).matches k (g.hash k) := by
    intro j
    by_cases hji : j = i
    · rw [hji, Mem.put_self, he]
      exact (Bool.eq_false_iff.2 h).symm
    · rw [Mem.put_ne _ _ _ _ hji]
  simp only [Mem.shelf, hsame]
  cases hf : (g.window r (g.hash k)).find? fun i => (s.entry r i).matches k (g.hash k) with
  | none => rfl
  | some j =>
    have hj := find?_some hf
    have hji : j ≠ i := fun heq => h (heq ▸ hj)
    simp only [map_some, Mem.put_ne _ _ _ _ hji]

/-! ## One slot is changed -/

/-- A function of the region has worked on the key: what is there now is `o`, and the shelves of
other keys are as they were. -/
structure Turns (g : Config) (r : Region) (key : Bytes) (s s' : Mem) (o : Option Held) : Prop
    extends Stays g r s s' where
  here : s'.shelf g key r = o
  others : ∀ k, k ≠ key → s'.shelf g k r = s.shelf g k r

theorem Turns.refl (hs : SoundBoth g s) (r : Region) (key : Bytes) :
    Turns g r key s s (s.shelf g key r) := ⟨.refl hs r, rfl, fun _ _ => rfl⟩

theorem HasAt.eq (h : HasAt g r key s i) (h' : HasAt g r k s i) : k = key := by
  obtain ⟨-, -, -, hk⟩ := Entry.matches_iff.1 h
  obtain ⟨-, -, -, hk'⟩ := Entry.matches_iff.1 h'
  exact hk'.symm.trans hk

theorem turns_bury (hs : SoundBoth g s) (hi : HasAt g r key s i) :
    Turns g r key s (s.bury r i) none where
  toStays := .put hs ((hs r).bury i)
  here := ((hs r).bury i).shelf_eq ((hs r).at_bury hi)
  others k hk := shelf_put_of_not (fun h => hk (hi.eq h)) (by simp [Entry.matches])

theorem turns_markExpires (hs : SoundBoth g s) (hi : HasAt g r key s i) (expires : Nat) :
    Turns g r key s (s.markExpires r i expires) (some ⟨(s.entry r i).val, expires⟩) where
  toStays := .put hs ((hs r).markExpires i expires)
  here := by
    have hi' : HasAt g r key (s.markExpires r i expires) i := by
      simpa [HasAt, Mem.markExpires, Entry.matches] using hi
    rw [((hs r).markExpires i expires).shelf_eq (o := some i) hi']
    simp [Mem.markExpires, Entry.held]
  others k hk := by
    refine shelf_put_of_not (fun h => hk (hi.eq h)) (Bool.eq_false_iff.2 fun h => hk ?_)
    exact hi.eq (by simpa [HasAt, Entry.matches] using h)

/-- A slot where the key may be written so that no other key is lost: its own, or the free one that
its walk gets to. -/
def Writable (g : Config) (r : Region) (key : Bytes) (s : Mem) (o : Option Nat) (t : Nat) : Prop :=
  o = some t ∨ (o = none ∧ Place g r key s t ∧ (s.entry r t).state ≠ .occupied)

theorem turns_write (hs : SoundBoth g s) (ho : At g r key s o) (hlen : key.length ≤ KEY_MAX)
    (hslots : g.slots r ≠ 0) {t : Nat} (ht : Writable g r key s o t) (val : Bytes) (expires : Nat) :
    Turns g r key s (s.write r t key val (g.hash key) expires) (some ⟨val, expires⟩) := by
  have hplace : o = some t ∨ (o = none ∧ Place g r key s t) := ht.imp_right fun h => ⟨h.1, h.2.1⟩
  have hsound := (hs r).write_at ho hlen hslots hplace val expires
  refine ⟨.put hs hsound, ?_, fun k hk => shelf_put_of_not (fun h => ?_) ?_⟩
  · have hhas : HasAt g r key (s.write r t key val (g.hash key) expires) t := by
      simp [HasAt, Mem.write, Entry.matches, hlen]
    rw [hsound.shelf_eq (o := some t) hhas]
    simp [Mem.write, Entry.held]
  · rcases ht with rfl | ⟨-, -, hfree⟩
    · exact hk (HasAt.eq ho h)
    · exact hfree h.occupied
  · refine Bool.eq_false_iff.2 fun h => hk ?_
    exact (Entry.matches_iff.1 h).2.2.2.symm

/-! ## The functions of a region -/

/-- The window of the key has a free slot, if the region is mapped. -/
def HasRoom (g : Config) (r : Region) (key : Bytes) (s : Mem) : Prop :=
  g.slots r = 0 ∨ ∃ i ∈ g.window r (g.hash key), (s.entry r i).state ≠ .occupied

instance : Decidable (HasRoom g r key s) := inferInstanceAs (Decidable (_ ∨ _))

theorem HasRoom.find? (h : HasRoom g r key s) (hslots : g.slots r ≠ 0) :
    ∃ t, (g.window r (g.hash key)).find? (fun j => (s.entry r j).state ≠ .occupied) = some t := by
  obtain ⟨i, hi, hfree⟩ := h.resolve_left hslots
  cases hf : (g.window r (g.hash key)).find? fun j => (s.entry r j).state ≠ .occupied with
  | none => exact absurd (find?_eq_none.1 hf i hi) (by simpa using hfree)
  | some t => exact ⟨t, rfl⟩

/-- A function of the region has done to the shelf of the key what `spec` says, and returned what it
says. -/
structure Serves {α : Type} (g : Config) (r : Region) (key : Bytes) (s : Mem) (out : Mem × α)
    (spec : Shelf × α) : Prop where
  stays : Stays g r s out.1
  here : out.1.shelf g key = spec.1
  others : ∀ k, k ≠ key → out.1.shelf g k = s.shelf g k
  res : out.2 = spec.2

theorem Turns.serves {α : Type} {h : Option Held} (ht : Turns g r key s s' h) (a : α) :
    Serves g r key s (s', a) ((s.shelf g key).put r h, a) := by
  refine ⟨ht.toStays, funext fun r' => ?_, fun k hk => funext fun r' => ?_, rfl⟩
  · by_cases hr : r' = r
    · subst hr
      simpa [Shelf.put] using ht.here
    · simpa [Shelf.put, hr] using shelf_congr (ht.other r' hr)
  · by_cases hr : r' = r
    · exact hr ▸ ht.others k hk
    · exact shelf_congr (ht.other r' hr)

theorem Serves.refl {α : Type} (hs : SoundBoth g s) (r : Region) (key : Bytes) (a : α) :
    Serves g r key s (s, a) (s.shelf g key, a) := ⟨.refl hs r, rfl, fun _ _ => rfl, rfl⟩

theorem Region.get_serves (hs : SoundBoth g s) (r : Region) (key : Bytes) :
    Serves g r key s ((r.get g key (g.hash key)).run s)
      (Shelf.getAt r s.nowSecs (s.shelf g key)) := by
  obtain ⟨o, ho⟩ := exists_at g r key s
  rw [Region.get_run (hs r) ho, Shelf.getAt, (hs r).shelf_eq ho]
  cases o with
  | none => exact .refl hs r key _
  | some i =>
    cases hexp : (s.entry r i).expired s.nowSecs with
    | true =>
      simp only [elim_some, map_some, Entry.held_expired, hexp, if_true]
      exact (turns_bury hs ho).serves _
    | false =>
      simp only [elim_some, map_some, Entry.held_expired, hexp, Bool.false_eq_true,
        if_false]
      exact .refl hs r key _

theorem Region.delete_serves (hs : SoundBoth g s) (r : Region) (key : Bytes) :
    Serves g r key s ((r.delete g key (g.hash key)).run s) (Shelf.deleteAt r (s.shelf g key)) := by
  obtain ⟨o, ho⟩ := exists_at g r key s
  have hshelf := (hs r).shelf_eq ho
  rw [Region.delete_run (hs r) ho, Shelf.deleteAt, hshelf]
  cases o with
  | none =>
    have hsame := (Turns.refl hs r key).serves false
    rwa [hshelf] at hsame
  | some i => exact (turns_bury hs ho).serves _

theorem Region.touch_serves (hs : SoundBoth g s) (r : Region) (key : Bytes) (ttl : Nat) :
    Serves g r key s ((r.touch g key (g.hash key) ttl).run s)
      (Shelf.touchAt r s.nowSecs (s.shelf g key) ttl) := by
  obtain ⟨o, ho⟩ := exists_at g r key s
  rw [Region.touch_run (hs r) ho, Shelf.touchAt, (hs r).shelf_eq ho]
  cases o with
  | none => exact .refl hs r key _
  | some i =>
    cases hexp : (s.entry r i).expired s.nowSecs with
    | true =>
      simp only [elim_some, map_some, Entry.held_expired, hexp, if_true]
      exact (turns_bury hs ho).serves _
    | false =>
      simp only [elim_some, map_some, Entry.held_expired, hexp, Bool.false_eq_true,
        if_false]
      exact (turns_markExpires hs ho _).serves _

theorem setScan_free {h : Nat} (hno : ∀ j, (s.entry r j).matches key h = false) (val : Bytes)
    (expires now : Nat) {w : List Nat} {a : SetAcc} {t : Nat}
    (ht : a.reuse.or (w.find? fun j => (s.entry r j).state ≠ .occupied) = some t) :
    (setScan g r key val h expires now w a).run s = (setWrite g r key val h expires t).run s := by
  induction w generalizing a with
  | nil =>
    rw [find?_nil, or_none] at ht
    rw [setScan, SetAcc.target, ht]
    rfl
  | cons j w ih =>
    simp only [setScan, run_atom, hno j, Bool.false_eq_true, if_false]
    cases hst : (s.entry r j).state with
    | empty =>
      rw [find?_cons_of_pos (by simp [hst])] at ht
      simp only [if_true, SetAcc.target, SetAcc.see, hst, reduceCtorEq, if_false, ht,
        some_or, getD_some]
    | occupied =>
      rw [find?_cons_of_neg (by simp [hst])] at ht
      simp only [reduceCtorEq, if_false]
      exact ih (by simpa [SetAcc.see, hst] using ht)
    | tombstone =>
      rw [find?_cons_of_pos (by simp [hst])] at ht
      simp only [reduceCtorEq, if_false]
      refine ih ?_
      simp only [SetAcc.see, hst, reduceCtorEq, if_false, ht, some_or]

theorem Region.set_serves (hs : SoundBoth g s) (hroom : HasRoom g r key s)
    (hlen : key.length ≤ KEY_MAX) (val : Bytes) (ttl : Nat) :
    Serves g r key s ((r.set g key val (g.hash key) ttl).run s)
      (Shelf.setAt g r s.nowSecs (s.shelf g key) val ttl) := by
  rw [Region.set, Shelf.setAt]
  split
  · exact .refl hs r key _
  rename_i hslots
  split
  · exact .refl hs r key _
  obtain ⟨o, ho⟩ := exists_at g r key s
  rw [run_read]
  cases o with
  | some i =>
    rw [setScan_some ((hs r).first ho)]
    exact (turns_write hs ho hlen hslots (.inl rfl) _ _).serves _
  | none =>
    obtain ⟨t, hf⟩ := hroom.find? hslots
    obtain ⟨hplace, hfree⟩ := place_find? hf
    rw [setScan_free ho.no_match _ _ _ (by simpa [SetAcc.start] using hf), setWrite, run_atom,
      tombstoneOthers_run]
    · exact (turns_write hs ho hlen hslots (.inr ⟨rfl, hplace, hfree⟩) _ _).serves _
    · intro j hj
      by_contra hjt
      rw [Mem.write, Mem.put_ne _ _ _ _ hjt, ho.no_match j] at hj
      cases hj

theorem Region.add_serves (hs : SoundBoth g s) (hroom : HasRoom g r key s)
    (hlen : key.length ≤ KEY_MAX) (val : Bytes) (ttl : Nat) :
    Serves g r key s ((r.add g key val (g.hash key) ttl).run s)
      (Shelf.addAt g r s.nowSecs (s.shelf g key) val ttl) := by
  rw [Region.add, Shelf.addAt]
  split
  · exact .refl hs r key _
  rename_i hslots
  split
  · exact .refl hs r key _
  obtain ⟨o, ho⟩ := exists_at g r key s
  rw [run_read, (hs r).shelf_eq ho]
  cases o with
  | some i =>
    rw [claimScan_some ((hs r).first ho), addHit]
    cases hexp : (s.entry r i).expired s.nowSecs with
    | true =>
      simp only [map_some, all_some, Entry.held_expired, hexp, if_true]
      exact (turns_write hs ho hlen hslots (.inl rfl) _ _).serves _
    | false =>
      simp only [map_some, all_some, Entry.held_expired, hexp, Bool.false_eq_true,
        if_false]
      exact .refl hs r key _
  | none =>
    obtain ⟨t, hf⟩ := hroom.find? hslots
    obtain ⟨hplace, hfree⟩ := place_find? hf
    rw [claimScan_none ho.no_match, none_or, hf]
    have hrun : (addCommit r key val (g.hash key) (deadline s.nowSecs ttl) s.nowSecs (some t)).run s
        = (s.write r t key val (g.hash key) (deadline s.nowSecs ttl), true) := by
      simp [addCommit, ho.no_match t, hfree]
    rw [hrun]
    exact (turns_write hs ho hlen hslots (.inr ⟨rfl, hplace, hfree⟩) _ _).serves _

theorem Region.increment_serves (hs : SoundBoth g s)
    (hroom : s.shelf g key r = none → HasRoom g r key s) (hlen : key.length ≤ KEY_MAX)
    (delta : Int) (ttl : Nat) : Serves g r key s ((r.increment g key (g.hash key) delta ttl).run s)
      (Shelf.incrementAt g r s.nowSecs (s.shelf g key) delta ttl) := by
  rw [Region.increment, Shelf.incrementAt]
  split
  · exact .refl hs r key _
  rename_i hslots
  obtain ⟨o, ho⟩ := exists_at g r key s
  have hshelf := (hs r).shelf_eq ho
  rw [run_read, hshelf]
  cases o with
  | some i =>
    rw [claimScan_some ((hs r).first ho), incrementHit]
    cases hexp : (s.entry r i).expired s.nowSecs with
    | true =>
      simp only [map_some, Shelf.counted, Entry.held_expired, hexp, if_true]
      exact (turns_write hs ho hlen hslots (.inl rfl) _ _).serves _
    | false =>
      simp only [map_some, Shelf.counted, Entry.held_expired, hexp, Bool.false_eq_true,
        if_false]
      exact (turns_write hs ho hlen hslots (.inl rfl) _ _).serves _
  | none =>
    obtain ⟨t, hf⟩ := (hroom hshelf).find? hslots
    obtain ⟨hplace, hfree⟩ := place_find? hf
    rw [claimScan_none ho.no_match, none_or, hf]
    have hrun : (incrementCommit r key (g.hash key) delta (deadline s.nowSecs ttl) s.nowSecs
        (some t)).run s =
        (s.write r t key (Bytes.intBytes delta) (g.hash key) (deadline s.nowSecs ttl), delta) := by
      simp [incrementCommit, ho.no_match t]
    rw [hrun]
    exact (turns_write hs ho hlen hslots (.inr ⟨rfl, hplace, hfree⟩) _ _).serves _

/-! ## Calls -/

/-- The window of the key has a free slot in each of the regions, so no entry has to go. -/
def RoomBoth (g : Config) (key : Bytes) (s : Mem) : Prop := ∀ r, HasRoom g r key s

theorem roomBoth_iff : RoomBoth g key s ↔ HasRoom g .small key s ∧ HasRoom g .large key s :=
  ⟨fun h => ⟨h .small, h .large⟩, fun h r => by cases r; exacts [h.1, h.2]⟩

instance : Decidable (RoomBoth g key s) := decidable_of_iff _ roomBoth_iff.symm

/-- What a call has done: the shelf of its key is what the call makes of it on a map, and so is the
result. -/
structure Served {α : Type} (g : Config) (key : Bytes) (s : Mem) (out : Mem × α)
    (spec : Shelf × α) : Prop where
  sound : SoundBoth g out.1
  clock : out.1.nowMs = s.nowMs
  here : out.1.shelf g key = spec.1
  others : ∀ k, k ≠ key → out.1.shelf g k = s.shelf g k
  res : out.2 = spec.2

section
variable {α β : Type} {out : Mem × α} {spec : Shelf × α}

theorem Serves.served (h : Serves g r key s out spec) : Served g key s out spec :=
  ⟨h.stays.sound, h.stays.clock, h.here, h.others, h.res⟩

theorem Served.refl (hs : SoundBoth g s) (key : Bytes) (a : α) :
    Served g key s (s, a) (s.shelf g key, a) := ⟨hs, rfl, rfl, fun _ _ => rfl, rfl⟩

theorem Served.trans {out' : Mem × β} {spec' : Shelf × β} (h : Served g key s out spec)
    (h' : Served g key out.1 out' spec') : Served g key s out' spec' :=
  ⟨h'.sound, h'.clock.trans h.clock, h'.here, fun k hk => (h'.others k hk).trans (h.others k hk),
    h'.res⟩

theorem Served.map (h : Served g key s out spec) (f : α → β) :
    Served g key s (out.1, f out.2) (spec.1, f spec.2) :=
  ⟨h.sound, h.clock, h.here, h.others, congrArg f h.res⟩

theorem Served.nowSecs (h : Served g key s out spec) : out.1.nowSecs = s.nowSecs := by
  rw [Mem.nowSecs, h.clock, Mem.nowSecs]

theorem Serves.hasRoom (h : Serves g r key s out spec) {r' : Region} (hr : r' ≠ r)
    (hroom : HasRoom g r' key s) : HasRoom g r' key out.1 := by
  rwa [HasRoom, h.stays.other r' hr]

end

theorem get_served (hs : SoundBoth g s) (hlen : key.length ≤ KEY_MAX) :
    Served g key s ((get g key).run s) (Shelf.get s.nowSecs (s.shelf g key)) := by
  have hsmall := (Region.get_serves hs .small key).served
  rw [get, if_neg (Nat.not_lt.2 hlen), run_bind, Shelf.get, ← hsmall.res]
  cases hv : ((Region.small.get g key (g.hash key)).run s).2 with
  | some v =>
    have hout : (((Region.small.get g key (g.hash key)).run s).1, some v) =
        (Region.small.get g key (g.hash key)).run s := by rw [← hv]
    rw [run_ret, hout]
    exact hsmall
  | none =>
    have hlarge := (Region.get_serves hsmall.sound .large key).served
    rw [hsmall.here, hsmall.nowSecs] at hlarge
    exact hsmall.trans hlarge

theorem set_served (hs : SoundBoth g s) (hroom : RoomBoth g key s) (hlen : key.length ≤ KEY_MAX)
    (val : Bytes) (ttl : Nat) : Served g key s ((set g key val ttl).run s)
      (Shelf.set g s.nowSecs (s.shelf g key) val ttl) := by
  have hboth : ∀ r r' : Region, r' ≠ r → Served g key s
      (((r'.delete g key (g.hash key)).bind fun _ => r.set g key val (g.hash key) ttl).run s)
      (Shelf.setAt g r s.nowSecs (Shelf.deleteAt r' (s.shelf g key)).1 val ttl) := by
    intro r r' hr
    have hdel := Region.delete_serves hs r' key
    have hset := (Region.set_serves hdel.served.sound (hdel.hasRoom hr.symm (hroom r)) hlen val
      ttl).served
    rw [hdel.here, hdel.served.nowSecs] at hset
    rw [run_bind]
    exact hdel.served.trans hset
  rw [set, if_neg (Nat.not_lt.2 hlen), Shelf.set]
  split
  · exact hboth .small .large (by decide)
  · split
    · exact hboth .large .small (by decide)
    · exact .refl hs key _

theorem add_served (hs : SoundBoth g s) (hroom : RoomBoth g key s) (hlen : key.length ≤ KEY_MAX)
    {val : Bytes} (hval : val.length ≤ VAL_SMALL) (ttl : Nat) :
    Served g key s ((add g key val ttl).run s) (Shelf.add g s.nowSecs (s.shelf g key) val ttl) := by
  have hget := Region.get_serves hs .large key
  have hadd := (Region.add_serves hget.served.sound (hget.hasRoom (by decide) (hroom .small)) hlen
    val ttl).served
  rw [hget.here, hget.served.nowSecs] at hadd
  rw [add, if_neg (by omega), run_bind, Shelf.add, ← hget.res]
  split
  · exact hget.served.map fun _ => false
  · exact hget.served.trans hadd

theorem delete_served (hs : SoundBoth g s) (key : Bytes) :
    Served g key s ((delete g key).run s) (Shelf.delete (s.shelf g key)) := by
  have hsmall := (Region.delete_serves hs .small key).served
  have hlarge := (Region.delete_serves hsmall.sound .large key).served
  rw [hsmall.here] at hlarge
  rw [delete, run_bind, run_map, Shelf.delete, hsmall.res]
  exact hsmall.trans (hlarge.map _)

theorem touch_served (hs : SoundBoth g s) (hlen : key.length ≤ KEY_MAX) (ttl : Nat) :
    Served g key s ((touch g key ttl).run s) (Shelf.touch s.nowSecs (s.shelf g key) ttl) := by
  have hsmall := (Region.touch_serves hs .small key ttl).served
  have hlarge := (Region.touch_serves hsmall.sound .large key ttl).served
  rw [hsmall.here, hsmall.nowSecs] at hlarge
  rw [touch, if_neg (Nat.not_lt.2 hlen), run_bind, Shelf.touch, ← hsmall.res]
  split
  · rename_i htrue
    have hout : (((Region.small.touch g key (g.hash key) ttl).run s).1, true) =
        (Region.small.touch g key (g.hash key) ttl).run s := by rw [← htrue]
    rw [run_ret, hout]
    exact hsmall
  · exact hsmall.trans hlarge

theorem increment_served (hs : SoundBoth g s) (hroom : RoomBoth g key s)
    (hlen : key.length ≤ KEY_MAX) (delta : Int) (ttl : Nat) :
    Served g key s ((increment g key delta ttl).run s)
      (Shelf.incrementAt g .small s.nowSecs (s.shelf g key) delta ttl) := by
  rw [increment, if_neg (Nat.not_lt.2 hlen)]
  exact (Region.increment_serves hs (fun _ => hroom .small) hlen delta ttl).served

theorem code_increment_served {app : Option Ns.App} {name : Bytes} (hs : SoundBoth g s)
    (hlen : (Ns.key app name).length ≤ KEY_MAX) (hslots : g.slots .small ≠ 0)
    (hroom : s.shelf g (Ns.key app name) .small = none → HasRoom g .small (Ns.key app name) s)
    (delta : Int) (ttl : Nat) :
    Served g (Ns.key app name) s ((code g ⟨app, name, .increment delta ttl⟩).run s)
      (let next := Shelf.counted s.nowSecs delta ttl (s.shelf g (Ns.key app name) .small)
      ((s.shelf g (Ns.key app name)).put .small (some ⟨Bytes.intBytes next.1, next.2⟩),
        .count next.1)) := by
  have h := (Region.increment_serves hs hroom hlen delta ttl).served.map Res.count
  rw [Shelf.incrementAt, if_neg hslots] at h
  rw [code]
  dsimp only [Call.key]
  rw [increment, if_neg (Nat.not_lt.2 hlen), run_map]
  exact h

theorem Served.guard {α β : Type} {c : Prop} [Decidable c] {p : Prog Mem α} {a : α}
    {spec : Shelf × α} (hs : SoundBoth g s) (hp : c → p = .ret a)
    (h : ¬ c → Served g key s (p.run s) spec) (f : α → β) : Served g key s ((p.map f).run s)
      (if c then (s.shelf g key, f a) else (spec.1, f spec.2)) := by
  rw [run_map]
  split
  · rename_i hc
    rw [hp hc]
    exact .refl hs key _
  · rename_i hc
    exact (h hc).map f

theorem code_serves (hs : SoundBoth g s) (c : Call) (hroom : RoomBoth g c.key s) :
    Served g c.key s ((code g c).run s)
      (Shelf.serve g s.nowSecs (s.shelf g c.key) c.key c.req) := by
  rw [code]
  cases c.req with
  | get => exact .guard hs (fun h => if_pos h) (fun h => get_served hs (Nat.not_lt.1 h)) _
  | set val ttl =>
    exact .guard hs (fun h => if_pos h) (fun h => set_served hs hroom (Nat.not_lt.1 h) val ttl) _
  | add val ttl =>
    refine .guard hs (fun h => if_pos h) (fun h => ?_) _
    exact add_served hs hroom (by omega) (by omega) ttl
  | delete =>
    rw [run_map]
    exact (delete_served hs _).map _
  | touch ttl =>
    exact .guard hs (fun h => if_pos h) (fun h => touch_served hs (Nat.not_lt.1 h) ttl) _
  | increment delta ttl =>
    refine .guard hs (fun h => if_pos h) (fun h => ?_) _
    exact increment_served hs hroom (Nat.not_lt.1 h) delta ttl

/-! ## `flush_app` -/

/-- The entries that a flush takes. -/
def Entry.goes (pre : Bytes) (e : Entry) : Bool :=
  e.state = .occupied && pre.isPrefixOf (e.key.take KEY_MAX)

/-- The loop of `flush_prefix`. -/
def flushScan (r : Region) (pre : Bytes) : List Nat → Prog Mem Unit
  | [] => .ret ()
  | i :: w => .atom fun s =>
    (if (s.entry r i).goes pre then s.bury r i else s, flushScan r pre w)

def Region.flushPrefix (g : Config) (r : Region) (pre : Bytes) : Prog Mem Unit :=
  if g.slots r = 0 then .ret () else flushScan r pre (range (g.slots r))

def flushApp (g : Config) (app : Ns.App) : Prog Mem Unit :=
  (Region.small.flushPrefix g app.prefixBytes).bind fun _ =>
    Region.large.flushPrefix g app.prefixBytes

/-- A region has been flushed: the keys that start with `pre` are gone from it, and the others are
where they were. -/
structure Flushed (g : Config) (r : Region) (pre : Bytes) (s s' : Mem) : Prop
    extends Stays g r s s' where
  gone : ∀ k, pre.isPrefixOf k = true → s'.shelf g k r = none
  kept : ∀ k, pre.isPrefixOf k = false → s'.shelf g k r = s.shelf g k r

theorem goes_of_hasAt {pre : Bytes} (h : HasAt g r k s i) :
    (s.entry r i).goes pre = pre.isPrefixOf k := by
  obtain ⟨hocc, -, hlen, rfl⟩ := Entry.matches_iff.1 h
  simp [Entry.goes, hocc, take_of_length_le hlen]

theorem flush_step (hs : SoundBoth g s) (r : Region) (pre : Bytes) (i : Nat) :
    ∃ s', s' = (if (s.entry r i).goes pre then s.bury r i else s) ∧ Stays g r s s' ∧
      (∀ k, pre.isPrefixOf k = false → s'.shelf g k r = s.shelf g k r) ∧
      (s'.entry r i).goes pre = false ∧
      ∀ j, (s.entry r j).goes pre = false → (s'.entry r j).goes pre = false := by
  refine ⟨_, rfl, ?_⟩
  cases hgo : (s.entry r i).goes pre with
  | true =>
    simp only [if_true]
    have hburied : ((s.bury r i).entry r i).goes pre = false := by simp [Mem.bury, Entry.goes]
    refine ⟨.put hs ((hs r).bury i), fun k hk => ?_, hburied, fun j hj => ?_⟩
    · refine shelf_put_of_not (fun h => ?_) (by simp [Entry.matches])
      rw [goes_of_hasAt h, hk] at hgo
      cases hgo
    · by_cases hji : j = i
      · rw [hji, hburied]
      · rwa [Mem.bury, Mem.put_ne _ _ _ _ hji]
  | false => exact ⟨.refl hs r, fun _ _ => rfl, hgo, fun _ => id⟩

theorem flushScan_run (hs : SoundBoth g s) (r : Region) (pre : Bytes) (w : List Nat) :
    Stays g r s ((flushScan r pre w).run s).1 ∧ (∀ k, pre.isPrefixOf k = false →
        ((flushScan r pre w).run s).1.shelf g k r = s.shelf g k r) ∧
      ∀ j, (j ∈ w ∨ (s.entry r j).goes pre = false) →
        (((flushScan r pre w).run s).1.entry r j).goes pre = false := by
  induction w generalizing s with
  | nil => exact ⟨.refl hs r, fun _ _ => rfl, fun j hj => hj.resolve_left (by simp)⟩
  | cons i w ih =>
    obtain ⟨s', heq, hstay, hkept, hhere, hthere⟩ := flush_step hs r pre i
    obtain ⟨hstay', hkept', hgone⟩ := ih hstay.sound
    rw [flushScan, run_atom, ← heq]
    refine ⟨⟨hstay'.sound, hstay'.clock.trans hstay.clock, fun r' hr =>
      (hstay'.other r' hr).trans (hstay.other r' hr)⟩, fun k hk =>
      (hkept' k hk).trans (hkept k hk), fun j hj => hgone j ?_⟩
    rcases hj with hj | hj
    · rcases mem_cons.1 hj with rfl | hj
      exacts [.inr hhere, .inl hj]
    · exact .inr (hthere j hj)

/-- **`flush_prefix` alone** flushes the region. -/
theorem Region.flushPrefix_run (hs : SoundBoth g s) (r : Region) (pre : Bytes) :
    Flushed g r pre s ((r.flushPrefix g pre).run s).1 := by
  rw [Region.flushPrefix]
  split
  · rename_i hslots
    refine ⟨.refl hs r, fun k _ => ?_, fun _ _ => rfl⟩
    exact (hs r).shelf_eq (o := none) fun i hi => ((hs r).place k i hi).1 hslots
  · rename_i hslots
    obtain ⟨hstay, hkept, hgone⟩ := flushScan_run hs r pre (range (g.slots r))
    refine ⟨hstay, fun k hk => ?_, hkept⟩
    refine (hstay.sound r).shelf_eq (o := none) fun i hi => ?_
    have hlt := mem_window (Nat.pos_of_ne_zero hslots) ((hstay.sound r).place k i hi).2.1
    have hno := hgone i (.inl (mem_range.2 hlt))
    rw [goes_of_hasAt hi, hk] at hno
    cases hno

/-- **A flush takes the shelves of its application**, and leaves every other one. -/
theorem flushApp_shelf (hs : SoundBoth g s) (app : Ns.App) :
    SoundBoth g ((flushApp g app).run s).1 ∧ ((flushApp g app).run s).1.nowMs = s.nowMs ∧
      ∀ k, ((flushApp g app).run s).1.shelf g k =
        if app.prefixBytes.isPrefixOf k then fun _ => none else s.shelf g k := by
  have hsmall := Region.flushPrefix_run hs .small app.prefixBytes
  have hlarge := Region.flushPrefix_run hsmall.sound .large app.prefixBytes
  rw [flushApp, run_bind]
  refine ⟨hlarge.sound, hlarge.clock.trans hsmall.clock, fun k => funext fun r => ?_⟩
  cases hk : app.prefixBytes.isPrefixOf k with
  | true =>
    simp only [if_true]
    cases r with
    | small =>
      rw [shelf_congr (hlarge.other .small (by decide))]
      exact hsmall.gone k hk
    | large => exact hlarge.gone k hk
  | false =>
    simp only [Bool.false_eq_true, if_false]
    cases r with
    | small =>
      rw [shelf_congr (hlarge.other .small (by decide))]
      exact hsmall.kept k hk
    | large =>
      rw [hlarge.kept k hk]
      exact shelf_congr (hsmall.other .large (by decide))

end Askr.Kv
