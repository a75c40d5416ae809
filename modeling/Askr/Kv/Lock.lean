import Askr.Kv.Walk

/-!
# `Cache::lock`

`add` is what a lock is taken with: of all `add`s on one key at most one may return true as long as
the key stays. They run interleaved, one slot lock at a time, with any calls on other keys.

An `add` has not started its walk of the small region yet, is on the walk, or goes back to the slot
it picked (`AddThread`). What it saw holds as long as nobody frees the slots it passed before it had
picked one, or the one it picked (`Relies`); then its next action does nothing, or takes a lock that
nobody has (`add_next`, `add_at_most_once`). The re-check of `add` looks at no other slot: in
`add_twice` a delete of another key frees a slot that the first caller has passed, and the second
one picks it.
-/

namespace Askr.Kv

open Conc Prog Probe List Pool

section
variable (g : Config) (k : Bytes)

/-- An `add` on its walk, with the slots that are left and the free slot it has picked. -/
def addWalk (val : Bytes) (expires now : Nat) (rest : List Nat) (pick : Option Nat) :
    Prog Mem Res :=
  (claimScan .small k (g.hash k) (addHit .small k val (g.hash k) expires now)
    (addCommit .small k val (g.hash k) expires now) rest pick).map .flag

/-- An `add` that goes back to the slot it picked. -/
def addBack (val : Bytes) (expires now i : Nat) : Prog Mem Res :=
  (addCommit .small k val (g.hash k) expires now (some i)).map .flag

/-- An `add` whose look into the large region is the program `q`. -/
def addEarly (val : Bytes) (ttl : Nat) (q : Prog Mem (Option Bytes)) : Prog Mem Res :=
  q.bind fun v =>
    (if v.isSome then .ret false else Region.small.add g k val (g.hash k) ttl).map .flag

/-- The slots an `add` under way relies on: those it has passed, up to the one it picked, and that
one. -/
def Relies (p : Prog Mem Res) (i : Nat) : Prop :=
  (∃ val expires now done rest, path g k = done ++ rest ∧
      p = addWalk g k val expires now rest none ∧ i ∈ done) ∨
    ∃ val expires now rest r, (p = addWalk g k val expires now rest (some r) ∨
      p = addBack g k val expires now r) ∧ (i = r ∨ i ∈ passed (path g k) r)

/-- The slots up to the pick `r` are taken, and `r` is not free to be written if one of the slots
`done` has the key. -/
def Picked (s : Mem) (done : List Nat) (r : Nat) : Prop :=
  (∀ j ∈ passed (path g k) r, Taken g k s j) ∧
    ∀ i ∈ done, Has g k s i → r = i ∨ Taken g k s r

/-- What an `add` knows after the slots `done`. -/
def Walked (s : Mem) (done : List Nat) : Option Nat → Prop
  | none => ∀ j ∈ done, Taken g k s j
  | some r => r ∈ done ∧ Picked g k s done r

/-- An `add` on the key, at some point of its way. -/
def AddThread (s : Mem) (p : Prog Mem Res) : Prop :=
  (∃ val ttl q, q.Guar (Act .large k (g.hash k) (fun _ => False) False) ∧
      p = addEarly g k val ttl q) ∨
    (∃ val expires now done rest pick, path g k = done ++ rest ∧ now ≤ s.nowSecs ∧
      Walked g k s done pick ∧ p = addWalk g k val expires now rest pick) ∨
    ∃ val expires now r, now ≤ s.nowSecs ∧ r ∈ path g k ∧ Picked g k s (path g k) r ∧
      p = addBack g k val expires now r

end

variable {g : Config} {k : Bytes} {s s' : Mem}

/-! ## One action of an `add` -/

theorem Walked.grow {done rest : List Nat} {i : Nat} {pick : Option Nat}
    (hpath : path g k = done ++ i :: rest) (hw : Walked g k s done pick) (hi : ¬ Has g k s i) :
    Walked g k s (done ++ [i])
      (if (s.entry .small i).state = .occupied then pick else pick.or (some i)) := by
  cases pick with
  | some r =>
    have hpick : (if (s.entry .small i).state = .occupied then some r else (some r).or (some i)) =
        some r := by split <;> rfl
    rw [hpick]
    refine ⟨mem_append_left _ hw.1, hw.2.1, fun j hj hhas => ?_⟩
    rcases mem_append.1 hj with hj | hj
    · exact hw.2.2 j hj hhas
    · cases mem_singleton.1 hj
      exact absurd hhas hi
  | none =>
    split
    · rename_i hocc
      intro j hj
      rcases mem_append.1 hj with hj | hj
      · exact hw j hj
      · cases mem_singleton.1 hj
        exact ⟨hocc, hi⟩
    · refine ⟨by simp, fun j hj => ?_, fun j hj hhas => ?_⟩
      · rw [hpath] at hj
        exact hw j (passed_subset hj)
      · rcases mem_append.1 hj with hj | hj
        · exact absurd hhas (hw j hj).2
        · cases mem_singleton.1 hj
          exact absurd hhas hi

theorem Picked.of_end {holder : Option Nat} (hh : Holder g k s holder) {done rest : List Nat}
    {i r : Nat} (hpath : path g k = done ++ i :: rest) (hi : (s.entry .small i).state = .empty)
    (hp : Picked g k s (done ++ [i]) r) : Picked g k s (path g k) r := by
  refine ⟨hp.1, fun j hj hhas => ?_⟩
  cases holder with
  | none => exact absurd hhas (hh j hj)
  | some i₀ =>
    obtain rfl := hh.2.2.1 j hj hhas
    exact hp.2 j (hh.mem_of_end hpath hi) hhas

/-- What one action of an `add` does: nothing to the small region, or it takes the lock, which
nobody has, and returns true. -/
inductive AddStep (g : Config) (k : Bytes) (s : Mem) (holder : Option Nat) (s' : Mem)
    (p' : Prog Mem Res) : Prop where
  | quiet : s'.entry .small = s.entry .small → s'.nowMs = s.nowMs →
      (AddThread g k s' p' ∨ p' = .ret (.flag false)) → AddStep g k s holder s' p'
  | takes (r : Nat) (val : Bytes) (expires : Nat) : holder = none → r ∈ path g k →
      (s.entry .small r).state ≠ .occupied → (∀ j ∈ passed (path g k) r, Taken g k s j) →
      s' = s.write .small r k val (g.hash k) expires → p' = .ret (.flag true) →
      AddStep g k s holder s' p'

theorem addBack_next {holder : Option Nat} (hh : Holder g k s holder) (hu : Unexpired g k s)
    {val : Bytes} {expires now r : Nat} (hnow : now ≤ s.nowSecs) (hr : r ∈ path g k)
    (hp : Picked g k s (path g k) r) :
    AddStep g k s holder ((addBack g k val expires now r).next s).1
      ((addBack g k val expires now r).next s).2 := by
  have hexp : (s.entry .small r).state = .occupied → (s.entry .small r).expired now = false :=
    fun hocc => Entry.expired_mono hnow (hu r hr hocc)
  simp only [addBack, addCommit, map_atom, next_atom]
  by_cases hhas : Has g k s r
  · have : (s.entry .small r).matches k (g.hash k) = true := hhas
    simp only [this, hexp hhas.occupied, Bool.not_false, Bool.and_self, if_true]
    exact .quiet rfl rfl (.inr rfl)
  · have hno : (s.entry .small r).matches k (g.hash k) = false := Bool.eq_false_iff.2 hhas
    by_cases hocc : (s.entry .small r).state = .occupied
    · simp only [hno, hexp hocc, hocc, Bool.false_and, Bool.or_self, ne_eq, not_true_eq_false,
        decide_false, Bool.false_eq_true, if_false]
      exact .quiet rfl rfl (.inr rfl)
    · simp only [hno, hocc, Bool.false_and, ne_eq, not_false_eq_true, decide_true, Bool.true_or,
        Bool.false_eq_true, if_true, if_false]
      refine .takes r val expires ?_ hr hocc hp.1 rfl rfl
      cases holder with
      | none => rfl
      | some i =>
        obtain ⟨hi, hhasi, -⟩ := hh
        rcases hp.2 i hi hhasi with rfl | ht
        exacts [absurd hhasi hhas, absurd ht.1 hocc]

/-- **What one action of an `add` does**, in a state where what it relies on still holds and no
entry on its way is expired. -/
theorem add_next {holder : Option Nat} (hh : Holder g k s holder) (hu : Unexpired g k s)
    {p : Prog Mem Res} (hp : AddThread g k s p) :
    AddStep g k s holder (p.next s).1 (p.next s).2 := by
  rcases hp with ⟨val, ttl, q, hq, rfl⟩ |
    ⟨val, expires, now, done, rest, pick, hpath, hnow, hw, rfl⟩ |
    ⟨val, expires, now, r, hnow, hr, hpk, rfl⟩
  · cases q with
    | act u n =>
      obtain ⟨hE, hG⟩ := hq s
      exact .quiet (hE.other (by decide)) hE.effect.clock (.inl (.inl ⟨val, ttl, n s, hG, rfl⟩))
    | ret v =>
      simp only [addEarly, bind_ret]
      cases v with
      | some v => exact .quiet rfl rfl (.inr rfl)
      | none =>
        simp only [Option.isSome_none, Bool.false_eq_true, if_false, Region.add]
        split
        · exact .quiet rfl rfl (.inr rfl)
        split
        · exact .quiet rfl rfl (.inr rfl)
        · refine .quiet rfl rfl (.inl (.inr (.inl ⟨val, _, s.nowSecs, [], path g k, none, rfl,
            Nat.le_refl _, by simp [Walked], rfl⟩)))
  · cases rest with
    | nil =>
      rw [append_nil] at hpath
      cases pick with
      | none => exact .quiet rfl rfl (.inr rfl)
      | some r =>
        exact addBack_next hh hu hnow (hpath ▸ hw.1) (hpath ▸ hw.2)
    | cons i rest =>
      have hi : i ∈ path g k := by simp [hpath]
      by_cases hhas : Has g k s i
      · have hexp := Entry.expired_mono hnow (hu i hi hhas.occupied)
        rw [addWalk, claimScan_next_hit hhas, addHit, hexp]
        exact .quiet rfl rfl (.inr rfl)
      · have hm : (s.entry .small i).matches k (g.hash k) = false := Bool.eq_false_iff.2 hhas
        have hw' := hw.grow hpath hhas
        by_cases hempty : (s.entry .small i).state = .empty
        · have hpick : ∃ r, pick.or (some i) = some r := by cases pick <;> simp
          obtain ⟨r, hr⟩ := hpick
          rw [addWalk, claimScan_next_end hm hempty, hr]
          simp only [hempty, reduceCtorEq, if_false, hr] at hw'
          have hrp : r ∈ path g k := by
            rw [hpath]
            rcases mem_append.1 hw'.1 with h | h
            · simp [h]
            · simp [mem_singleton.1 h]
          exact .quiet rfl rfl (.inl (.inr (.inr ⟨val, expires, now, r, hnow, hrp,
            hw'.2.of_end hh hpath hempty, rfl⟩)))
        · rw [addWalk, claimScan_next_on hm hempty]
          exact .quiet rfl rfl (.inl (.inr (.inl ⟨val, expires, now, done ++ [i], rest, _,
            by simp [hpath], hnow, hw', rfl⟩)))
  · exact addBack_next hh hu hnow hr hpk

/-! ## What others may do meanwhile -/

/-- An `add` under way goes on in a state where the slots it relies on that were taken still are,
and where a slot that has the key had it before or leaves no pick to be written. -/
theorem AddThread.mono {p : Prog Mem Res} (hp : AddThread g k s p) (hnow : s.nowMs ≤ s'.nowMs)
    (ht : ∀ i, Relies g k p i → Taken g k s i → Taken g k s' i)
    (hh : ∀ i ∈ path g k, Has g k s' i → Has g k s i ∨
      ∀ r ∈ path g k, (∀ j ∈ passed (path g k) r, Taken g k s j) → r = i ∨ Taken g k s' r) :
    AddThread g k s' p := by
  have hsecs : s.nowSecs ≤ s'.nowSecs := Nat.div_le_div_right hnow
  have hpicked : ∀ {done r}, (∀ i ∈ done, i ∈ path g k) → r ∈ path g k →
      (∀ i, i = r ∨ i ∈ passed (path g k) r → Relies g k p i) → Picked g k s done r →
      Picked g k s' done r := by
    intro done r hdone hr hrel hpk
    refine ⟨fun j hj => ht j (hrel j (.inr hj)) (hpk.1 j hj), fun i hi hhas => ?_⟩
    rcases hh i (hdone i hi) hhas with hold | hnew
    · exact (hpk.2 i hi hold).imp_right (ht r (hrel r (.inl rfl)))
    · exact hnew r hr hpk.1
  rcases hp with h | ⟨val, expires, now, done, rest, pick, hpath, hn, hw, rfl⟩ |
    ⟨val, expires, now, r, hn, hr, hpk, rfl⟩
  · exact .inl h
  · refine .inr (.inl ⟨val, expires, now, done, rest, pick, hpath, Nat.le_trans hn hsecs, ?_, rfl⟩)
    have hdone : ∀ i ∈ done, i ∈ path g k := fun i hi => by simp [hpath, hi]
    cases pick with
    | none =>
      exact fun j hj => ht j (.inl ⟨val, expires, now, done, rest, hpath, rfl, hj⟩) (hw j hj)
    | some r =>
      exact ⟨hw.1, hpicked hdone (hdone r hw.1)
        (fun i hi => .inr ⟨val, expires, now, rest, r, .inl rfl, hi⟩) hw.2⟩
  · exact .inr (.inr ⟨val, expires, now, r, Nat.le_trans hn hsecs, hr, hpicked (fun _ h => h) hr
      (fun i hi => .inr ⟨val, expires, now, [], r, .inr rfl, hi⟩) hpk, rfl⟩)

section
variable {p : Prog Mem Res}

theorem AddThread.quiet (hp : AddThread g k s p) (hs : s'.entry .small = s.entry .small)
    (hnow : s.nowMs ≤ s'.nowMs) : AddThread g k s' p := by
  have hhas : ∀ i, Has g k s' i ↔ Has g k s i := fun i => by simp only [Has, hs]
  refine hp.mono hnow (fun i _ ht => ?_) (fun i _ h => .inl ((hhas i).1 h))
  exact ⟨by rw [hs]; exact ht.1, fun h => ht.2 ((hhas i).1 h)⟩

/-- A call on another key acts, and frees no slot that is relied on. -/
theorem AddThread.other (hp : AddThread g k s p) {key : Bytes} {h : Nat} (hne : key ≠ k)
    (he : CallEffect key h s s')
    (hfree : ∀ i, Relies g k p i → (s.entry .small i).state = .occupied →
      (s'.entry .small i).state = .occupied) : AddThread g k s' p := by
  have hhas : ∀ i, Has g k s' i → Has g k s i := fun i hi =>
    (he.slot .small i).matches_of_ne hne hi
  exact hp.mono (Nat.le_of_eq he.clock.symm)
    (fun i hrel ht => ⟨hfree i hrel ht.1, fun h => ht.2 (hhas i h)⟩) (fun i _ h => .inl (hhas i h))

theorem AddThread.takes (hp : AddThread g k s p) {r : Nat} {val : Bytes} {expires : Nat}
    (hr : r ∈ path g k) (hocc : (s.entry .small r).state ≠ .occupied)
    (hpre : ∀ j ∈ passed (path g k) r, Taken g k s j) :
    AddThread g k (s.write .small r k val (g.hash k) expires) p := by
  have htaken : ∀ i, Taken g k s i → Taken g k (s.write .small r k val (g.hash k) expires) i := by
    intro i hi
    have hir : i ≠ r := by
      rintro rfl
      exact hocc hi.1
    simpa [Taken, Has, Mem.write, hir] using hi
  refine hp.mono (Nat.le_refl _) (fun i _ => htaken i) (fun i hi hhas => ?_)
  by_cases hir : i = r
  · subst hir
    refine .inr fun x hx hxpre => ?_
    rcases mem_passed_or hx hr with h | h | h
    · exact .inl h
    · exact .inr (htaken x (hpre x h))
    · exact absurd (hxpre i h).1 hocc
  · refine .inl ?_
    simpa [Has, Mem.write, hir] using hhas

end

/-! ## Schedules -/

/-- A returned call that took the lock `k`: an `add` on it that returned true. -/
def acquires (k : Bytes) (x : Ret Call Res) : Bool :=
  match x.call.req with
  | .add _ _ => x.call.key = k && x.res = .flag true
  | _ => false

/-- How often the lock was taken so far. -/
def acquired (k : Bytes) (P : Pool Mem Call Res) : Nat := P.done.countP (acquires k)

/-- The events the lock is about: the calls on its key are `add`s, and no entry on the walk of the
key is expired. -/
structure LockEvent (g : Config) (k : Bytes) (P : Pool Mem Call Res) (e : Event Call Nat) :
    Prop where
  unexpired : Unexpired g k P.shared
  adds : ∀ t c, e = .call t c → c.key = k → ∃ val ttl, c.req = .add val ttl

/-- An event that leaves the lock alone: an action of a call on another key does not write over the
entry of `k`, and frees no slot that an `add` on `k` under way relies on. -/
structure Calm (g : Config) (k : Bytes) (P : Pool Mem Call Res) (e : Event Call Nat) : Prop where
  event : LockEvent g k P e
  keeps : ∀ t c p, e = .step t → P.thread t = some (c, p) → c.key ≠ k →
    ∀ i ∈ path g k, Has g k P.shared i → Has g k (p.next P.shared).1 i
  frees : ∀ t c p, e = .step t → P.thread t = some (c, p) → c.key ≠ k →
    ∀ t' c' p', P.thread t' = some (c', p') → c'.key = k → ∀ i, Relies g k p' i →
      (P.shared.entry .small i).state = .occupied →
      ((p.next P.shared).1.entry .small i).state = .occupied

/-- What holds in every state of a calm schedule. -/
structure LockInv (g : Config) (k : Bytes) (P : Pool Mem Call Res) : Prop where
  adds : ∀ t c p, P.thread t = some (c, p) → c.key = k →
    (∃ val ttl, c.req = .add val ttl) ∧ k.length ≤ KEY_MAX ∧ AddThread g k P.shared p
  holder : ∃ o, Holder g k P.shared o ∧ acquired k P = if o.isSome then 1 else 0

theorem addEarly_ret {val : Bytes} {ttl : Nat} {q : Prog Mem (Option Bytes)} {r : Res}
    (h : addEarly g k val ttl q = .ret r) : r = .flag false := by
  cases q with
  | act u n => cases h
  | ret v =>
    simp only [addEarly, bind_ret] at h
    cases v with
    | some v => cases h; rfl
    | none =>
      simp only [Option.isSome_none, Bool.false_eq_true, if_false, Region.add] at h
      split at h
      · cases h; rfl
      split at h
      · cases h; rfl
      · cases h

theorem AddThread.of_ret {r : Res} (hp : AddThread g k s (.ret r)) : r = .flag false := by
  rcases hp with ⟨val, ttl, q, -, h⟩ | ⟨val, expires, now, done, rest, pick, -, -, -, h⟩ |
    ⟨val, expires, now, i, -, -, -, h⟩
  · exact addEarly_ret h.symm
  · cases rest with
    | nil =>
      cases pick with
      | none => cases h; rfl
      | some i => cases h
    | cons i rest => cases h
  · cases h

theorem code_add {c : Call} {val : Bytes} {ttl : Nat} (hc : c.req = .add val ttl) :
    code g c = .ret (.flag false) ∨ c.key.length ≤ KEY_MAX ∧
      code g c = addEarly g c.key val ttl (Region.large.get g c.key (g.hash c.key)) := by
  simp only [code, hc, add]
  split
  · exact .inl rfl
  · rename_i hlen
    exact .inr ⟨by omega, map_bind _ _ _⟩

section
variable {P : Pool Mem Call Res} {t : Nat} {c : Call} {p : Prog Mem Res}

theorem acquired_settle (h : ∀ r, p = .ret r → acquires k ⟨t, c, r⟩ = false) :
    acquired k (P.settle t c s p) = acquired k P := by
  rcases P.settle_done (t := t) (c := c) (s := s) (p := p) with hd | ⟨r, hr, hd⟩
  · rw [acquired, hd, acquired]
  · rw [acquired, hd, countP_cons, h r hr, acquired]
    rfl

theorem acquires_of_ne (hc : c.key ≠ k) (r : Res) : acquires k ⟨t, c, r⟩ = false := by
  unfold acquires
  split
  · simp [hc]
  · rfl

theorem acquires_false : acquires k ⟨t, c, .flag false⟩ = false := by
  unfold acquires
  split <;> simp

/-- An `add` of the key, or any call on another, may begin. -/
theorem LockInv.call (h : LockInv g k P) (hadd : c.key = k → ∃ val ttl, c.req = .add val ttl) :
    LockInv g k (P.settle t c P.shared (code g c)) := by
  obtain ⟨o, ho, hn⟩ := h.holder
  refine ⟨?_, o, by simpa using ho, ?_⟩
  · rw [settle_shared]
    refine forall_settle (fun hret hk => ?_) fun t' c' p' _ => h.adds t' c' p'
    obtain ⟨val, ttl, hreq⟩ := hadd hk
    rcases code_add (g := g) hreq with hc | ⟨hlen, hc⟩
    · exact absurd hc (hret _)
    · subst hk
      rw [hc]
      exact ⟨⟨val, ttl, hreq⟩, hlen, .inl ⟨val, ttl, _, Region.get_act g, rfl⟩⟩
  · rw [acquired_settle fun r hr => ?_, hn]
    by_cases hk : c.key = k
    · obtain ⟨val, ttl, hreq⟩ := hadd hk
      have hfalse : r = .flag false := by
        rcases code_add (g := g) hreq with hc | ⟨-, hc⟩
        · rw [hc] at hr
          cases hr
          rfl
        · rw [hc] at hr
          exact addEarly_ret hr
      rw [hfalse]
      exact acquires_false
    · exact acquires_of_ne hk r

/-- An action of a call on another key. -/
theorem LockInv.other (h : LockInv g k P) (hne : c.key ≠ k)
    (heff : CallEffect c.key (g.hash c.key) P.shared (p.next P.shared).1)
    (hkeep : ∀ i ∈ path g k, Has g k P.shared i → Has g k (p.next P.shared).1 i)
    (hfree : ∀ t' c' p', P.thread t' = some (c', p') → c'.key = k → ∀ i, Relies g k p' i →
      (P.shared.entry .small i).state = .occupied →
      ((p.next P.shared).1.entry .small i).state = .occupied) :
    LockInv g k (P.settle t c (p.next P.shared).1 (p.next P.shared).2) := by
  obtain ⟨o, ho, hn⟩ := h.holder
  refine ⟨?_, o, ?_, ?_⟩
  · rw [settle_shared]
    refine forall_settle (fun _ hk => absurd hk hne) fun t' c' p' _ ht' hk => ?_
    obtain ⟨hreq, hlen, hadd⟩ := h.adds t' c' p' ht' hk
    exact ⟨hreq, hlen, hadd.other hne heff (hfree t' c' p' ht' hk)⟩
  · rw [settle_shared]
    exact ho.other hne heff hkeep
  · rw [acquired_settle fun r _ => acquires_of_ne hne r, hn]

/-- An action of an `add` on the key. -/
theorem LockInv.add (h : LockInv g k P) (ht : P.thread t = some (c, p)) (hk : c.key = k)
    (hu : Unexpired g k P.shared) :
    LockInv g k (P.settle t c (p.next P.shared).1 (p.next P.shared).2) := by
  obtain ⟨o, ho, hn⟩ := h.holder
  obtain ⟨⟨val, ttl, hreq⟩, hlen, hadd⟩ := h.adds t c p ht hk
  cases add_next ho hu hadd with
  | quiet hsmall hnow hp' =>
    refine ⟨?_, o, ?_, ?_⟩
    · rw [settle_shared]
      refine forall_settle (fun hret _ => ⟨⟨val, ttl, hreq⟩, hlen, hp'.resolve_right (hret _)⟩)
        fun t' c' p' _ ht' hk' => ?_
      obtain ⟨hreq', -, hadd'⟩ := h.adds t' c' p' ht' hk'
      exact ⟨hreq', hlen, hadd'.quiet hsmall (Nat.le_of_eq hnow.symm)⟩
    · rw [settle_shared]
      exact ho.quiet hsmall
    · rw [acquired_settle fun r hr => ?_, hn]
      have hfalse : r = .flag false := by
        rcases hp' with hp' | hp'
        · rw [hr] at hp'
          exact hp'.of_ret
        · rw [hr] at hp'
          cases hp'
          rfl
      rw [hfalse]
      exact acquires_false
  | takes r _ _ hnone hr hocc hpre hs' hp' =>
    subst hnone
    refine ⟨?_, some r, ?_, ?_⟩
    · rw [settle_shared, hs']
      refine forall_settle (fun hret _ => absurd hp' (hret _)) fun t' c' p' _ ht' hk' => ?_
      obtain ⟨hreq', -, hadd'⟩ := h.adds t' c' p' ht' hk'
      exact ⟨hreq', hlen, hadd'.takes hr hocc hpre⟩
    · rw [settle_shared, hs']
      exact holder_write hlen hr (fun j hj hhas => absurd hhas (ho j hj))
        fun j hj => by simp [(hpre j hj).1]
    · rw [hp']
      simp [acquired, settle, acquires, hreq, hk] at hn ⊢
      exact hn

end

/-- One calm event keeps the invariant. -/
theorem LockInv.exec {P : Pool Mem Call Res} {e : Event Call Nat} (h : LockInv g k P)
    (hg : P.Guarded fun c => CallEffect c.key (g.hash c.key)) (hc : Calm g k P e) :
    LockInv g k (P.exec (code g) tick e) := by
  rcases exec_cases (code g) tick P e with he | ⟨t, c, hev, he⟩ | ⟨t, c, p, hev, ht, he⟩ |
    ⟨x, -, he⟩
  · rwa [he]
  · rw [he]
    exact h.call (hc.event.adds t c hev)
  · rw [he]
    by_cases hk : c.key = k
    · exact h.add ht hk hc.event.unexpired
    · exact h.other hk ((hg t c p ht).next (.refl _ _) P.shared).1 (hc.keeps t c p hev ht hk)
        (hc.frees t c p hev ht hk)
  · rw [he]
    obtain ⟨o, ho, hn⟩ := h.holder
    refine ⟨fun t c p ht hk => ?_, o, ho.quiet rfl, hn⟩
    obtain ⟨hreq, hlen, hadd⟩ := h.adds t c p ht hk
    exact ⟨hreq, hlen, hadd.quiet rfl (Nat.le_add_right _ _)⟩

/-- **At most one `add` returns true.** From any state without the key, in every schedule of `add`s
on it and calls on other keys whose events are all calm, the lock is taken at most once. -/
theorem add_at_most_once (g : Config) (k : Bytes) (s : Mem) (es : List (Event Call Nat))
    (habs : ∀ i ∈ path g k, ¬ Has g k s i)
    (hrun : Run.Along (exec (code g) tick) (Calm g k) (start s) es) :
    acquired k (after g s es) ≤ 1 := by
  have hstart : LockInv g k (start s) := ⟨fun t c p ht => (by cases ht), none, habs, rfl⟩
  obtain ⟨o, -, hn⟩ := ((along_guarded (fun _ => .refl _ _) (code_effect g) hrun).inv
    (fun P e hc h => LockInv.exec h hc.2 hc.1) hstart).holder
  rw [hn]
  split <;> omega

/-! ## Two callers on an empty table -/

/-- The key of the lock. Its home slot in sixteen is that of `k2`. -/
def lockKey : Bytes := Bytes.ofString "k3"

theorem along_calm {es : List (Event Call Nat)}
    (hes : ∀ t c, .call t c ∈ es → c.key = k ∧ ∃ val ttl, c.req = .add val ttl)
    (hrun : Run.Along (exec (code g) tick) (fun P _ => Unexpired g k P.shared) (start s)
      es) : Run.Along (exec (code g) tick) (Calm g k) (start s) es := by
  have hcalls := along_calls (K := fun _ c => c.key = k) (fun t c p h => by cases h)
    (fun t c hc => (hes t c hc).1) (hrun.and_mem (D := fun e => e ∈ es) fun _ he => he)
  refine hcalls.mono fun P e hC => ⟨⟨hC.1.1, fun t c he _ => (hes t c (he ▸ hC.1.2)).2⟩, ?_, ?_⟩
  · exact fun t c p _ ht hne => absurd (hC.2 t c p ht) hne
  · exact fun t c p _ ht hne => absurd (hC.2 t c p ht) hne

def raceForLock : List (Event Call Nat) :=
  [.call 0 (callOn "k3" (.add [1] 0)), .call 1 (callOn "k3" (.add [2] 0)), .step 0, .step 1,
    .step 0, .step 1, .step 0, .step 1]

/-- The race has one winner. -/
theorem add_at_most_once_race : acquired lockKey (after tiny (.init 0) raceForLock) ≤ 1 := by
  refine add_at_most_once tiny lockKey (.init 0) raceForLock (by decide)
    (along_calm (fun t c hc => ?_) ?_)
  · simp only [raceForLock, mem_cons, not_mem_nil, or_false, reduceCtorEq,
      Event.call.injEq] at hc
    rcases hc with ⟨-, rfl⟩ | ⟨-, rfl⟩
    exacts [⟨rfl, _, _, rfl⟩, ⟨rfl, _, _, rfl⟩]
  · refine ⟨?_, ?_, ?_, ?_, ?_, ?_, ?_, ?_, trivial⟩ <;> decide

/-! ## A schedule with two winners -/

/-- A lock as one would have it: whatever calls on other keys do, of the `add`s on an absent key one
returns true. -/
def LockExclusive (hasher : Hasher) : Prop :=
  ∀ (slots largeSlots : Nat) (k : Bytes) (s : Mem) (es : List (Event Call Nat)),
    let g := Config.init hasher slots largeSlots
    (∀ i ∈ path g k, ¬ Has g k s i) →
    Run.Along (exec (code g) tick) (LockEvent g k) (start s) es →
    acquired k (after g s es) ≤ 1

/-- The first caller passes the other key and picks the slot behind it, the other key is deleted,
and the second caller picks its slot. -/
def deleteBetweenAdds : List (Event Call Nat) :=
  [.call 0 (callOn "k3" (.add [1] 0)), .step 0, .step 0, .step 0,
    .call 2 (callOn "k2" .delete), .step 2, .step 2,
    .call 1 (callOn "k3" (.add [2] 0)), .step 1, .step 1, .step 1, .step 1,
    .step 0]

/-- **Two `add`s return true.** -/
theorem add_twice : ¬ LockExclusive Ns.bytesHash := by
  intro h
  have hle := h 16 0 lockKey otherSet deleteBetweenAdds (by decide) ?_
  · exact absurd hle (by decide)
  · refine ⟨?_, ?_, ?_, ?_, ?_, ?_, ?_, ?_, ?_, ?_, ?_, ?_, ?_, trivial⟩
    all_goals refine ⟨by decide, fun t c he hk => ?_⟩
    all_goals cases he
    all_goals first | exact ⟨_, _, rfl⟩ | exact absurd hk (by decide)

end Askr.Kv
