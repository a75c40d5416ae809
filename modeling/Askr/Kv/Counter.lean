import Askr.Kv.Walk
import Mathlib.Algebra.Order.Ring.Int

/-!
# Counters

`increment` adds to a decimal counter in place, or creates it. Any number of `increment`s on one key
run interleaved, one slot lock at a time, with any calls on other keys, and none may get lost.

Once the counter is there, an `increment` finds it (`IncWalked`). Before, everybody who has picked a
slot has to have picked the same one, and that is so as long as no call on another key frees a slot
that was passed or takes the one that was picked (`CounterCalm`, `increments_not_lost`). `increment`
writes into the slot it picked whatever is there by now: `increment_lost` has a schedule where two
counters are created, and one where another key is written over.
-/

namespace Askr.Kv

open Conc Prog Probe List Pool Bytes

section
variable (g : Config) (k : Bytes)

/-- An `increment` on its walk, with the slots that are left and the free slot it has picked. -/
def incWalk (delta : Int) (expires now : Nat) (rest : List Nat) (pick : Option Nat) :
    Prog Mem Res :=
  (claimScan .small k (g.hash k) (incrementHit .small k (g.hash k) delta expires now)
    (incrementCommit .small k (g.hash k) delta expires now) rest pick).map .count

/-- An `increment` that goes back to the slot it picked. -/
def incBack (delta : Int) (expires now i : Nat) : Prog Mem Res :=
  (incrementCommit .small k (g.hash k) delta expires now (some i)).map .count

/-- An `increment` under way has picked the slot `r`. -/
def Picks (p : Prog Mem Res) (r : Nat) : Prop :=
  ∃ delta expires now, (∃ rest, p = incWalk g k delta expires now rest (some r)) ∨
    p = incBack g k delta expires now r

/-- An `increment` under way has passed the slot `i` before it had picked one. -/
def Passes (p : Prog Mem Res) (i : Nat) : Prop :=
  (∃ delta expires now done rest, path g k = done ++ rest ∧
      p = incWalk g k delta expires now rest none ∧ i ∈ done) ∨
    ∃ r, Picks g k p r ∧ i ∈ passed (path g k) r

/-- The slot `r` is the one to create the counter in: it is free, and those in front of it are
not. -/
def Vacant (s : Mem) (r : Nat) : Prop :=
  (s.entry .small r).state ≠ .occupied ∧ ∀ j ∈ passed (path g k) r, Taken g k s j

/-- What an `increment` knows after the slots `done`, while the key is where `o` says. -/
def IncWalked (s : Mem) (o : Option Nat) (done : List Nat) (pick : Option Nat) : Prop :=
  match o, pick with
  | some i, _ => i ∈ done → pick = some i
  | none, none => ∀ j ∈ done, Taken g k s j
  | none, some r => r ∈ done ∧ Vacant g k s r

/-- What an `increment` that goes back to its pick knows. -/
def IncPicked (s : Mem) (o : Option Nat) (r : Nat) : Prop :=
  r ∈ path g k ∧ match o with
    | some i => r = i
    | none => Vacant g k s r

/-- An `increment` by `delta` on the key, at some point of its way. -/
def IncThread (s : Mem) (o : Option Nat) (delta : Int) (p : Prog Mem Res) : Prop :=
  (∃ ttl, p = (Region.small.increment g k (g.hash k) delta ttl).map .count) ∨
    (∃ expires now done rest pick, path g k = done ++ rest ∧ now ≤ s.nowSecs ∧
      IncWalked g k s o done pick ∧ p = incWalk g k delta expires now rest pick) ∨
    ∃ expires now r, now ≤ s.nowSecs ∧ IncPicked g k s o r ∧ p = incBack g k delta expires now r

/-- What the counter reads, where the key is where `o` says. -/
def reading (s : Mem) : Option Nat → Int
  | none => 0
  | some i => counterOf (s.entry .small i).val

end

variable {g : Config} {k : Bytes} {s s' : Mem} {o : Option Nat}

theorem counterOf_intBytes {n : Int} (h : Bytes.InI64 n) : counterOf (intBytes n) = n := by
  rw [counterOf, if_pos (isUtf8_intBytes n), parseI64_trim_intBytes h]
  rfl

theorem satAddI64_eq {a b : Int} (h : Bytes.InI64 (a + b)) : satAddI64 a b = a + b := by
  unfold Bytes.InI64 at h
  unfold satAddI64
  omega

/-! ## One action of an `increment` -/

theorem IncWalked.grow {done rest : List Nat} {i : Nat} {pick : Option Nat}
    (hpath : path g k = done ++ i :: rest) (hh : Holder g k s o)
    (hw : IncWalked g k s o done pick) (hi : ¬ Has g k s i) : IncWalked g k s o (done ++ [i])
      (if (s.entry .small i).state = .occupied then pick else pick.or (some i)) := by
  cases o with
  | some i₀ =>
    intro hmem
    have hdone : i₀ ∈ done := by
      rcases mem_append.1 hmem with h | h
      · exact h
      · cases mem_singleton.1 h
        exact absurd hh.2.1 hi
    rw [hw hdone]
    split <;> rfl
  | none =>
    cases pick with
    | some r =>
      have hpick : (if (s.entry .small i).state = .occupied then some r
          else (some r).or (some i)) = some r := by split <;> rfl
      rw [hpick]
      exact ⟨mem_append_left _ hw.1, hw.2⟩
    | none =>
      split
      · rename_i hocc
        intro j hj
        rcases mem_append.1 hj with hj | hj
        · exact hw j hj
        · cases mem_singleton.1 hj
          exact ⟨hocc, hi⟩
      · rename_i hocc
        refine ⟨by simp, hocc, fun j hj => ?_⟩
        rw [hpath] at hj
        exact hw j (passed_subset hj)

theorem IncWalked.of_end {done rest : List Nat} {i r : Nat} (hh : Holder g k s o)
    (hpath : path g k = done ++ i :: rest) (hi : (s.entry .small i).state = .empty)
    (hw : IncWalked g k s o (done ++ [i]) (some r)) : IncPicked g k s o r := by
  cases o with
  | none =>
    refine ⟨?_, hw.2⟩
    rw [hpath]
    rcases mem_append.1 hw.1 with h | h
    · simp [h]
    · simp [mem_singleton.1 h]
  | some i₀ =>
    cases hw (hh.mem_of_end hpath hi)
    exact ⟨hh.1, rfl⟩

theorem IncThread.not_ret {delta : Int} {r : Res} (hs : g.slots .small ≠ 0)
    (hroom : ∃ j ∈ path g k, ¬ Taken g k s j) (hh : Holder g k s o) :
    ¬ IncThread g k s o delta (.ret r) := by
  rintro (⟨ttl, h⟩ | ⟨expires, now, done, rest, pick, hpath, -, hw, h⟩ | ⟨expires, now, i, -, -, h⟩)
  · rw [Region.increment, if_neg hs] at h
    cases h
  · cases rest with
    | cons i rest => cases h
    | nil =>
      rw [append_nil] at hpath
      cases pick with
      | some i => cases h
      | none =>
        cases o with
        | none =>
          obtain ⟨j, hj, hfree⟩ := hroom
          exact hfree (hw j (hpath ▸ hj))
        | some i => cases hw (hpath ▸ hh.1)
  · cases h

/-- What one action of an `increment` does: nothing, or it adds to the counter, or it creates the
counter in a free slot. -/
inductive IncStep (g : Config) (k : Bytes) (s : Mem) (o : Option Nat) (delta : Int) (s' : Mem)
    (p' : Prog Mem Res) : Prop where
  | quiet : s' = s → IncThread g k s o delta p' → IncStep g k s o delta s' p'
  | bumps (i expires : Nat) : o = some i →
      s' = s.write .small i k (intBytes (reading s o + delta)) (g.hash k) expires →
      expires = (s.entry .small i).expiresAt → p' = .ret (.count (reading s o + delta)) →
      IncStep g k s o delta s' p'
  | creates (r expires : Nat) : o = none → r ∈ path g k → Vacant g k s r →
      s' = s.write .small r k (intBytes delta) (g.hash k) expires →
      p' = .ret (.count delta) → IncStep g k s o delta s' p'

theorem bump_eq {delta : Int} {i : Nat} (hsum : Bytes.InI64 (reading s (some i) + delta)) :
    bump .small k (g.hash k) delta s i =
      (s.write .small i k (intBytes (reading s (some i) + delta)) (g.hash k)
        (s.entry .small i).expiresAt, reading s (some i) + delta) := by
  rw [bump, show counterOf (s.entry .small i).val = reading s (some i) from rfl, satAddI64_eq hsum]

theorem incBack_next {delta : Int} {expires now r : Nat} (hh : Holder g k s o)
    (hu : Unexpired g k s) (hsum : Bytes.InI64 (reading s o + delta)) (hnow : now ≤ s.nowSecs)
    (hp : IncPicked g k s o r) : IncStep g k s o delta ((incBack g k delta expires now r).next s).1
      ((incBack g k delta expires now r).next s).2 := by
  simp only [incBack, incrementCommit, map_atom, next_atom]
  obtain ⟨hr, hp⟩ := hp
  cases o with
  | some i =>
    subst hp
    have hm : (s.entry .small r).matches k (g.hash k) = true := hh.2.1
    have hexp := Entry.expired_mono hnow (hu r hr (Has.occupied hh.2.1))
    simp only [hm, hexp, Bool.not_false, Bool.and_self, if_true, bump_eq hsum]
    exact .bumps r _ rfl rfl rfl rfl
  | none =>
    have hm : (s.entry .small r).matches k (g.hash k) = false := Bool.eq_false_iff.2 (hh r hr)
    simp only [hm, Bool.false_and, Bool.false_eq_true, if_false]
    exact .creates r expires rfl hr hp rfl rfl

/-- **What one action of an `increment` does**, in a state where what it knows still holds, no entry
on its way is expired, the window is not full of other keys and the sum is in range. -/
theorem inc_next {delta : Int} {p : Prog Mem Res} (hs : g.slots .small ≠ 0)
    (hroom : ∃ j ∈ path g k, ¬ Taken g k s j) (hh : Holder g k s o) (hu : Unexpired g k s)
    (hsum : Bytes.InI64 (reading s o + delta)) (hp : IncThread g k s o delta p) :
    IncStep g k s o delta (p.next s).1 (p.next s).2 := by
  rcases hp with ⟨ttl, rfl⟩ | ⟨expires, now, done, rest, pick, hpath, hnow, hw, rfl⟩ |
    ⟨expires, now, r, hnow, hpk, rfl⟩
  · rw [Region.increment, if_neg hs]
    refine .quiet rfl (.inr (.inl ⟨_, s.nowSecs, [], path g k, none, rfl, Nat.le_refl _, ?_, rfl⟩))
    cases o <;> simp [IncWalked]
  · cases rest with
    | nil =>
      rw [append_nil] at hpath
      cases pick with
      | none =>
        have hlost : IncThread g k s o delta (.ret (.count delta)) :=
          .inr (.inl ⟨expires, now, done, [], none, by simp [hpath], hnow, hw, rfl⟩)
        exact absurd hlost (IncThread.not_ret hs hroom hh)
      | some r =>
        refine incBack_next hh hu hsum hnow ?_
        subst hpath
        cases o with
        | none => exact hw
        | some i =>
          cases hw hh.1
          exact ⟨hh.1, rfl⟩
    | cons i rest =>
      have hi : i ∈ path g k := by simp [hpath]
      by_cases hhas : Has g k s i
      · have hexp := Entry.expired_mono hnow (hu i hi hhas.occupied)
        cases o with
        | none => exact absurd hhas (hh i hi)
        | some i₀ =>
          obtain rfl := hh.2.2.1 i hi hhas
          simp only [incWalk, claimScan_next_hit hhas, incrementHit, hexp, Bool.false_eq_true,
            if_false, bump_eq hsum]
          exact .bumps i _ rfl rfl rfl rfl
      · have hm : (s.entry .small i).matches k (g.hash k) = false := Bool.eq_false_iff.2 hhas
        have hw' := hw.grow hpath hh hhas
        by_cases hempty : (s.entry .small i).state = .empty
        · have hpick : ∃ r, pick.or (some i) = some r := by cases pick <;> simp
          obtain ⟨r, hr⟩ := hpick
          rw [incWalk, claimScan_next_end hm hempty, hr]
          simp only [hempty, reduceCtorEq, if_false, hr] at hw'
          exact .quiet rfl (.inr (.inr ⟨expires, now, r, hnow, hw'.of_end hh hpath hempty, rfl⟩))
        · rw [incWalk, claimScan_next_on hm hempty]
          exact .quiet rfl (.inr (.inl ⟨expires, now, done ++ [i], rest, _, by simp [hpath], hnow,
            hw', rfl⟩))
  · exact incBack_next hh hu hsum hnow hpk

/-! ## What others may do meanwhile -/

/-- An `increment` under way goes on in a state where, if there is no counter yet, the slots it has
passed are still taken and its pick is still free. -/
theorem IncThread.mono {delta : Int} {p : Prog Mem Res} (hp : IncThread g k s o delta p)
    (hnow : s.nowMs ≤ s'.nowMs)
    (hpass : o = none → ∀ i, Passes g k p i → Taken g k s i → Taken g k s' i)
    (hpick : o = none → ∀ r, Picks g k p r → (s.entry .small r).state ≠ .occupied →
      (s'.entry .small r).state ≠ .occupied) : IncThread g k s' o delta p := by
  have hsecs : s.nowSecs ≤ s'.nowSecs := Nat.div_le_div_right hnow
  have hvacant : o = none → ∀ {r}, Picks g k p r → Vacant g k s r → Vacant g k s' r :=
    fun ho r hr hv => ⟨hpick ho r hr hv.1,
      fun j hj => hpass ho j (.inr ⟨r, hr, hj⟩) (hv.2 j hj)⟩
  rcases hp with h | ⟨expires, now, done, rest, pick, hpath, hn, hw, rfl⟩ |
    ⟨expires, now, r, hn, ⟨hr, hpk⟩, rfl⟩
  · exact .inl h
  · refine .inr (.inl ⟨expires, now, done, rest, pick, hpath, Nat.le_trans hn hsecs, ?_, rfl⟩)
    cases o with
    | some i => exact hw
    | none =>
      cases pick with
      | none =>
        exact fun j hj => hpass rfl j
          (.inl ⟨delta, expires, now, done, rest, hpath, rfl, hj⟩) (hw j hj)
      | some r => exact ⟨hw.1, hvacant rfl ⟨delta, expires, now, .inl ⟨rest, rfl⟩⟩ hw.2⟩
  · refine .inr (.inr ⟨expires, now, r, Nat.le_trans hn hsecs, ⟨hr, ?_⟩, rfl⟩)
    cases o with
    | some i => exact hpk
    | none => exact hvacant rfl ⟨delta, expires, now, .inr rfl⟩ hpk

theorem Vacant.unique {r r' : Nat} (hv : Vacant g k s r) (hv' : Vacant g k s r') (hr : r ∈ path g k)
    (hr' : r' ∈ path g k) : r = r' := by
  rcases mem_passed_or hr hr' with h | h | h
  · exact h
  · exact absurd (hv'.2 r h).1 hv.1
  · exact absurd (hv.2 r' h).1 hv'.1

/-- Another `increment` creates the counter: whoever has picked a slot has picked that one, and
whoever has not has not got there yet. -/
theorem IncThread.created {delta : Int} {p : Prog Mem Res} (hp : IncThread g k s none delta p)
    {r : Nat} (hr : r ∈ path g k) (hv : Vacant g k s r) (hnow : s'.nowMs = s.nowMs) :
    IncThread g k s' (some r) delta p := by
  have hsecs : s.nowSecs ≤ s'.nowSecs :=
    Nat.le_of_eq (by rw [Mem.nowSecs, Mem.nowSecs, hnow])
  rcases hp with h | ⟨expires, now, done, rest, pick, hpath, hn, hw, rfl⟩ |
    ⟨expires, now, r', hn, ⟨hr', hv'⟩, rfl⟩
  · exact .inl h
  · refine .inr (.inl ⟨expires, now, done, rest, pick, hpath, Nat.le_trans hn hsecs, fun hmem => ?_,
      rfl⟩)
    cases pick with
    | none => exact absurd (hw r hmem).1 hv.1
    | some r' => rw [hv.unique hw.2 hr (by simp [hpath, hw.1])]
  · exact .inr (.inr ⟨expires, now, r', Nat.le_trans hn hsecs, ⟨hr', (hv.unique hv' hr hr').symm⟩,
      rfl⟩)

/-! ## Schedules -/

/-- The deltas of the `increment`s on the key that have returned, newest first. -/
def counted (k : Bytes) (P : Pool Mem Call Res) : List Int :=
  P.done.filterMap fun x =>
    match x.call.req with
    | .increment delta _ => if x.call.key = k then some delta else none
    | _ => none

/-- The events the counter is about: the calls on its key are `increment`s, no entry on the walk of
the key is expired, no call on another key writes over the counter, and the sums are in range. -/
structure CounterEvent (g : Config) (k : Bytes) (v : Int) (P : Pool Mem Call Res)
    (e : Event Call Nat) : Prop where
  unexpired : Unexpired g k P.shared
  increments : ∀ t c, e = .call t c → c.key = k → ∃ delta ttl, c.req = .increment delta ttl
  keeps : ∀ t c p, e = .step t → P.thread t = some (c, p) → c.key ≠ k →
    ∀ i ∈ path g k, Has g k P.shared i → Has g k (p.next P.shared).1 i
  sums : ∀ t c p delta ttl, e = .step t → P.thread t = some (c, p) → c.key = k →
    c.req = .increment delta ttl → Bytes.InI64 (v + (counted k P).sum + delta)

/-- An event that leaves the counter alone. While there is no counter yet, an action of a call on
another key neither frees a slot that an `increment` under way has passed nor takes the slot it has
picked; and an `increment` does not find the whole window taken by other keys. -/
structure CounterCalm (g : Config) (k : Bytes) (v : Int) (P : Pool Mem Call Res)
    (e : Event Call Nat) : Prop where
  event : CounterEvent g k v P e
  passed : ∀ t c p, e = .step t → P.thread t = some (c, p) → c.key ≠ k →
    (∀ i ∈ path g k, ¬ Has g k P.shared i) →
    ∀ t' c' p', P.thread t' = some (c', p') → c'.key = k → ∀ i, Passes g k p' i →
      (P.shared.entry .small i).state = .occupied →
      ((p.next P.shared).1.entry .small i).state = .occupied
  picked : ∀ t c p, e = .step t → P.thread t = some (c, p) → c.key ≠ k →
    (∀ i ∈ path g k, ¬ Has g k P.shared i) →
    ∀ t' c' p', P.thread t' = some (c', p') → c'.key = k → ∀ r, Picks g k p' r →
      (P.shared.entry .small r).state ≠ .occupied →
      ((p.next P.shared).1.entry .small r).state ≠ .occupied
  room : ∀ t c p, e = .step t → P.thread t = some (c, p) → c.key = k →
    ∃ j ∈ path g k, ¬ Taken g k P.shared j

/-- What holds in every state of a calm schedule, for a counter that started at `v` and is where `o`
says. -/
structure CounterAt (g : Config) (k : Bytes) (v : Int) (P : Pool Mem Call Res) (o : Option Nat) :
    Prop where
  holder : Holder g k P.shared o
  threads : ∀ t c p, P.thread t = some (c, p) → c.key = k →
    ∃ delta ttl, c.req = .increment delta ttl ∧ IncThread g k P.shared o delta p
  reads : reading P.shared o = v + (counted k P).sum
  written : counted k P ≠ [] →
    ∃ i, o = some i ∧ (P.shared.entry .small i).val = intBytes (v + (counted k P).sum)

section
variable {P : Pool Mem Call Res} {t : Nat} {c : Call} {p : Prog Mem Res} {v : Int}

theorem counted_settle (h : c.key ≠ k ∨ ∀ r, p ≠ .ret r) :
    counted k (P.settle t c s p) = counted k P := by
  rcases P.settle_done (t := t) (c := c) (s := s) (p := p) with hd | ⟨r, hr, hd⟩
  · rw [counted, hd, counted]
  · have hne : c.key ≠ k := h.resolve_right fun h' => h' r hr
    rw [counted, hd, counted, filterMap_cons_none]
    simp only
    split
    · exact if_neg hne
    · rfl

theorem counted_ret {delta : Int} {ttl : Nat} {r : Res} (hk : c.key = k)
    (hreq : c.req = .increment delta ttl) :
    counted k (P.settle t c s (.ret r)) = delta :: counted k P := by
  simp [counted, settle, hreq, hk]

/-- An `increment` of the key, or any call on another, may begin. -/
theorem CounterAt.call (hk : k.length ≤ KEY_MAX) (hs : g.slots .small ≠ 0)
    (h : CounterAt g k v P o) (hinc : c.key = k → ∃ delta ttl, c.req = .increment delta ttl) :
    CounterAt g k v (P.settle t c P.shared (code g c)) o := by
  have hcode : c.key = k → ∃ delta ttl, c.req = .increment delta ttl ∧
      code g c = (Region.small.increment g k (g.hash k) delta ttl).map .count := by
    rintro rfl
    obtain ⟨delta, ttl, hreq⟩ := hinc rfl
    refine ⟨delta, ttl, hreq, ?_⟩
    simp only [code, hreq, increment]
    rw [if_neg (Nat.not_lt.2 hk)]
  have hcount : counted k (P.settle t c P.shared (code g c)) = counted k P := by
    refine counted_settle ?_
    by_cases hck : c.key = k
    · obtain ⟨delta, ttl, -, hc⟩ := hcode hck
      refine .inr fun r hr => ?_
      rw [hc, Region.increment, if_neg hs] at hr
      cases hr
    · exact .inl hck
  refine ⟨by simpa using h.holder, ?_, ?_, ?_⟩
  · rw [settle_shared]
    refine forall_settle (fun _ hk' => ?_) fun t' c' p' _ => h.threads t' c' p'
    obtain ⟨delta, ttl, hreq, hc⟩ := hcode hk'
    exact ⟨delta, ttl, hreq, .inl ⟨ttl, hc⟩⟩
  · rw [settle_shared, hcount, h.reads]
  · rw [settle_shared, hcount]
    exact h.written

theorem CounterAt.other (h : CounterAt g k v P o) (hne : c.key ≠ k)
    (heff : CallEffect c.key (g.hash c.key) P.shared (p.next P.shared).1)
    (hkeep : ∀ i ∈ path g k, Has g k P.shared i → Has g k (p.next P.shared).1 i)
    (hpass : o = none → ∀ t' c' p', P.thread t' = some (c', p') → c'.key = k →
      ∀ i, Passes g k p' i → (P.shared.entry .small i).state = .occupied →
        ((p.next P.shared).1.entry .small i).state = .occupied)
    (hpick : o = none → ∀ t' c' p', P.thread t' = some (c', p') → c'.key = k →
      ∀ r, Picks g k p' r → (P.shared.entry .small r).state ≠ .occupied →
        ((p.next P.shared).1.entry .small r).state ≠ .occupied) :
    CounterAt g k v (P.settle t c (p.next P.shared).1 (p.next P.shared).2) o := by
  have hsame : ∀ i, o = some i →
      (p.next P.shared).1.entry .small i = P.shared.entry .small i := by
    rintro i rfl
    obtain ⟨hi, hhas, -⟩ := h.holder
    refine ((heff.slot .small i).of_matches hne hhas).resolve_right fun hno => ?_
    have hm : ((p.next P.shared).1.entry .small i).matches k (g.hash k) = true := hkeep i hi hhas
    rw [hno.2] at hm
    cases hm
  refine ⟨?_, ?_, ?_, ?_⟩
  · rw [settle_shared]
    exact h.holder.other hne heff hkeep
  · rw [settle_shared]
    refine forall_settle (fun _ hk' => absurd hk' hne) fun t' c' p' _ ht' hk' => ?_
    obtain ⟨delta, ttl, hreq, hinc⟩ := h.threads t' c' p' ht' hk'
    refine ⟨delta, ttl, hreq, hinc.mono (Nat.le_of_eq heff.clock.symm) (fun ho i hi htk => ?_)
      fun ho => hpick ho t' c' p' ht' hk'⟩
    exact ⟨hpass ho t' c' p' ht' hk' i hi htk.1,
      fun hm => htk.2 ((heff.slot .small i).matches_of_ne hne hm)⟩
  · rw [settle_shared, counted_settle (.inl hne), ← h.reads]
    cases o with
    | none => rfl
    | some i => rw [reading, reading, hsame i rfl]
  · rw [settle_shared, counted_settle (.inl hne)]
    intro hc
    obtain ⟨i, rfl, hval⟩ := h.written hc
    exact ⟨i, rfl, by rw [hsame i rfl, hval]⟩

theorem CounterAt.write (hk : k.length ≤ KEY_MAX)
    (hkey : c.key = k) {delta : Int} {ttl : Nat} (hreq : c.req = .increment delta ttl)
    (hsum : Bytes.InI64 (v + (counted k P).sum + delta)) {i expires : Nat} {r : Res}
    (hi : i ∈ path g k) (hno : ∀ j ∈ path g k, Has g k P.shared j → j = i)
    (hreach : ∀ j ∈ passed (path g k) i, (P.shared.entry .small j).state ≠ .empty)
    (hthreads : ∀ t' c' p', t' ≠ t → P.thread t' = some (c', p') → c'.key = k →
      ∃ delta' ttl', c'.req = .increment delta' ttl' ∧ IncThread g k (P.shared.write .small i k
        (intBytes (v + (counted k P).sum + delta)) (g.hash k) expires) (some i) delta' p') :
    CounterAt g k v (P.settle t c (P.shared.write .small i k
      (intBytes (v + (counted k P).sum + delta)) (g.hash k) expires) (.ret r)) (some i) := by
  have hsum' : v + (counted k (P.settle t c (P.shared.write .small i k
      (intBytes (v + (counted k P).sum + delta)) (g.hash k) expires) (.ret r))).sum =
        v + (counted k P).sum + delta := by
    rw [counted_ret hkey hreq, sum_cons]
    omega
  refine ⟨?_, ?_, ?_, fun _ => ⟨i, rfl, ?_⟩⟩
  · rw [settle_shared]
    exact holder_write hk hi hno hreach
  · rw [settle_shared]
    exact forall_settle (fun hret => absurd rfl (hret r)) hthreads
  · rw [settle_shared, hsum', reading, Mem.write, Mem.put_self]
    exact counterOf_intBytes hsum
  · rw [settle_shared, hsum', Mem.write, Mem.put_self]

theorem CounterAt.goOn (h : CounterAt g k v P o) {delta : Int} {ttl : Nat}
    (hreq : c.req = .increment delta ttl) (hret : ∀ r, p ≠ .ret r)
    (hp : IncThread g k P.shared o delta p) : CounterAt g k v (P.settle t c P.shared p) o := by
  refine ⟨by simpa using h.holder, ?_, ?_, ?_⟩
  · rw [settle_shared]
    exact forall_settle (fun _ _ => ⟨delta, ttl, hreq, hp⟩) fun t' c' p' _ => h.threads t' c' p'
  · rw [settle_shared, counted_settle (.inr hret), h.reads]
  · rw [settle_shared, counted_settle (.inr hret)]
    exact h.written

/-- A write for the key into a slot that is free or the key's leaves the entries of other keys
alone. -/
theorem write_other {s : Mem} {i : Nat} (hi : (s.entry .small i).state ≠ .occupied ∨ Has g k s i)
    (val : Bytes) (expires : Nat) (r : Region) (j : Nat) (hocc : (s.entry r j).state = .occupied)
    (hno : (s.entry r j).matches k (g.hash k) = false) :
    (s.write .small i k val (g.hash k) expires).entry r j = s.entry r j := by
  cases r with
  | large => rw [Mem.write, Mem.put_region _ _ _ _ (by decide)]
  | small =>
    have hji : j ≠ i := by
      rintro rfl
      rcases hi with hi | hi
      · exact hi hocc
      · rw [Has, hno] at hi
        cases hi
    rw [Mem.write, Mem.put_ne _ _ _ _ hji]

/-- An action of an `increment` on the key: the counter goes on being right, and an entry of another
key is left alone. -/
theorem CounterAt.inc (hk : k.length ≤ KEY_MAX) (hs : g.slots .small ≠ 0) (h : CounterAt g k v P o)
    (ht : P.thread t = some (c, p)) (hkey : c.key = k) (hu : Unexpired g k P.shared)
    (hroom : ∃ j ∈ path g k, ¬ Taken g k P.shared j)
    (hsum : ∀ delta ttl, c.req = .increment delta ttl →
      Bytes.InI64 (v + (counted k P).sum + delta)) :
    (∃ o', CounterAt g k v (P.settle t c (p.next P.shared).1 (p.next P.shared).2) o') ∧
      ∀ r i, (P.shared.entry r i).state = .occupied →
        (P.shared.entry r i).matches k (g.hash k) = false →
        (p.next P.shared).1.entry r i = P.shared.entry r i := by
  obtain ⟨delta, ttl, hreq, hinc⟩ := h.threads t c p ht hkey
  have hrange := hsum delta ttl hreq
  cases inc_next hs hroom h.holder hu (h.reads ▸ hrange) hinc with
  | quiet hs' hp' =>
    have hret : ∀ r, (p.next P.shared).2 ≠ .ret r := fun r hr =>
      IncThread.not_ret hs hroom h.holder (hr ▸ hp')
    rw [hs']
    exact ⟨⟨o, h.goOn hreq hret hp'⟩, fun _ _ _ _ => rfl⟩
  | bumps i expires ho hs' _ hp' =>
    subst ho
    obtain ⟨hi, hhas, huniq, hreach⟩ := h.holder
    rw [hs', hp', h.reads]
    refine ⟨⟨some i, .write hk hkey hreq hrange hi huniq hreach fun t' c' p' _ ht' hk' => ?_⟩,
      write_other (.inr hhas) _ _⟩
    obtain ⟨delta', ttl', hreq', hinc'⟩ := h.threads t' c' p' ht' hk'
    exact ⟨delta', ttl', hreq', hinc'.mono (Nat.le_refl _) (fun ho => by cases ho)
      fun ho => by cases ho⟩
  | creates r expires ho hr hv hs' hp' =>
    subst ho
    have hzero : v + (counted k P).sum + delta = delta := by
      rw [← h.reads, reading, Int.zero_add]
    rw [hs', hp']
    refine ⟨⟨some r, ?_⟩, write_other (.inl hv.1) _ _⟩
    have hend : CounterAt g k v (P.settle t c (P.shared.write .small r k
        (intBytes (v + (counted k P).sum + delta)) (g.hash k) expires) (.ret (.count delta)))
        (some r) :=
      .write hk hkey hreq hrange hr (fun j hj hhas => absurd hhas (h.holder j hj))
        (fun j hj => by simp [(hv.2 j hj).1]) fun t' c' p' _ ht' hk' => ?_
    · rwa [hzero] at hend
    · obtain ⟨delta', ttl', hreq', hinc'⟩ := h.threads t' c' p' ht' hk'
      exact ⟨delta', ttl', hreq', hinc'.created hr hv rfl⟩

end

/-- One calm event keeps the counter right. -/
theorem CounterAt.exec {P : Pool Mem Call Res} {e : Event Call Nat} {v : Int}
    (hk : k.length ≤ KEY_MAX) (hs : g.slots .small ≠ 0) (h : ∃ o, CounterAt g k v P o)
    (hg : P.Guarded fun c => CallEffect c.key (g.hash c.key)) (hc : CounterCalm g k v P e) :
    ∃ o, CounterAt g k v (P.exec (code g) tick e) o := by
  obtain ⟨o, h⟩ := h
  rcases exec_cases (code g) tick P e with he | ⟨t, c, hev, he⟩ | ⟨t, c, p, hev, ht, he⟩ |
    ⟨x, -, he⟩
  · rw [he]
    exact ⟨o, h⟩
  · rw [he]
    exact ⟨o, h.call hk hs (hc.event.increments t c hev)⟩
  · rw [he]
    by_cases hkey : c.key = k
    · exact (h.inc hk hs ht hkey hc.event.unexpired (hc.room t c p hev ht hkey)
        fun delta ttl hreq => hc.event.sums t c p delta ttl hev ht hkey hreq).1
    · have habs : o = none → ∀ i ∈ path g k, ¬ Has g k P.shared i := fun ho => by
        subst ho
        exact h.holder
      exact ⟨o, h.other hkey ((hg t c p ht).next (.refl _ _) P.shared).1
        (hc.event.keeps t c p hev ht hkey) (fun ho => hc.passed t c p hev ht hkey (habs ho))
        fun ho => hc.picked t c p hev ht hkey (habs ho)⟩
  · rw [he]
    refine ⟨o, h.holder.quiet rfl, fun t c p ht hkey => ?_, h.reads, h.written⟩
    obtain ⟨delta, ttl, hreq, hinc⟩ := h.threads t c p ht hkey
    exact ⟨delta, ttl, hreq,
      hinc.mono (Nat.le_add_right _ _) (fun _ _ _ ht => ht) fun _ _ _ hr => hr⟩

/-- **Increments are not lost.** From any state where the key is nowhere or in one slot that its
walk gets to, in every schedule of `increment`s on it and calls on other keys whose events are all
calm: once an `increment` has returned, `get` reads the initial value plus the deltas of those that
have, and no action of an `increment` changes an entry of another key. -/
theorem increments_not_lost (g : Config) (k : Bytes) (s : Mem) (o : Option Nat)
    (es : List (Event Call Nat)) (hk : k.length ≤ KEY_MAX) (hs : g.slots .small ≠ 0)
    (ho : Holder g k s o)
    (hrun : Run.Along (exec (code g) tick) (CounterCalm g k (reading s o)) (start s) es) :
    (counted k (after g s es) ≠ [] → Unexpired g k (after g s es).shared →
      (get g k).run (after g s es).shared = ((after g s es).shared,
        some (intBytes (reading s o + (counted k (after g s es)).sum)))) ∧
      ∀ es' e, es' ++ [e] <+: es → let P := after g s es'
        ∀ t c p, e = .step t → P.thread t = some (c, p) → c.key = k →
          ∀ r i, (P.shared.entry r i).state = .occupied →
            (P.shared.entry r i).matches k (g.hash k) = false →
            (p.next P.shared).1.entry r i = P.shared.entry r i := by
  have hstart : ∃ o', CounterAt g k (reading s o) (start s) o' :=
    ⟨o, ho, fun t c p ht => (by cases ht), by simp [counted, start], fun hc => absurd rfl hc⟩
  have hinv : ∀ es', Run.Along (exec (code g) tick) (CounterCalm g k (reading s o))
      (start s) es' → ∃ o', CounterAt g k (reading s o) (after g s es') o' :=
    fun es' h => (along_guarded (fun _ => .refl _ _) (code_effect g) h).inv
      (I := fun P => ∃ o', CounterAt g k (reading s o) P o')
      (fun P e hc h => CounterAt.exec hk hs h hc.2 hc.1) hstart
  refine ⟨?_, ?_⟩
  · intro hc hu
    obtain ⟨o', h⟩ := hinv es hrun
    obtain ⟨i, rfl, hval⟩ := h.written hc
    rw [h.holder.get_run (hu i h.holder.1 h.holder.2.1.occupied) hs, hval]
  · intro es' e hp P t c p hev ht hkey
    obtain ⟨hrun', hlast⟩ := Run.along_append.1 (hrun.of_prefix hp)
    obtain ⟨o', h⟩ := hinv es' hrun'
    exact (h.inc hk hs ht hkey hlast.1.event.unexpired (hlast.1.room t c p hev ht hkey)
      fun delta ttl hreq => hlast.1.event.sums t c p delta ttl hev ht hkey hreq).2

/-! ## Two callers on an empty table -/

/-- The conditions of `CounterEvent` that look at the acting caller, computed. -/
def counterCheck (g : Config) (k : Bytes) (v : Int) (P : Pool Mem Call Res) : Event Call Nat → Bool
  | .call _ c => c.key ≠ k || match c.req with
    | .increment _ _ => true
    | _ => false
  | .step t => match P.thread t with
    | none => true
    | some (c, p) =>
      if c.key = k then
        match c.req with
        | .increment delta _ => Bytes.InI64 (v + (counted k P).sum + delta)
        | _ => true
      else (path g k).all fun i => !Has g k P.shared i || Has g k (p.next P.shared).1 i
  | .env _ => true

theorem counterEvent_of_check {P : Pool Mem Call Res} {e : Event Call Nat} {v : Int}
    (hu : Unexpired g k P.shared) (h : counterCheck g k v P e = true) : CounterEvent g k v P e := by
  refine ⟨hu, fun t c he hk => ?_, fun t c p he ht hne i hi hhas => ?_,
    fun t c p delta ttl he ht hk hreq => ?_⟩
  · subst he
    cases hreq : c.req with
    | increment delta ttl => exact ⟨delta, ttl, rfl⟩
    | get | set | add | delete | touch => simp [counterCheck, hk, hreq] at h
  · subst he
    simp only [counterCheck, ht, if_neg hne, all_eq_true, Bool.or_eq_true,
      Bool.not_eq_true', decide_eq_false_iff_not, decide_eq_true_eq] at h
    exact (h i hi).resolve_left fun h' => h' hhas
  · subst he
    simpa [counterCheck, ht, hk, hreq] using h

theorem along_counterCalm {es : List (Event Call Nat)} {v : Int}
    (hes : ∀ t c, .call t c ∈ es → c.key = k) (hrun : Run.Along (exec (code g) tick)
      (fun P e => Unexpired g k P.shared ∧ counterCheck g k v P e = true ∧
        ∃ j ∈ path g k, ¬ Taken g k P.shared j) (start s) es) :
    Run.Along (exec (code g) tick) (CounterCalm g k v) (start s) es := by
  have hcalls := along_calls (K := fun _ c => c.key = k) (fun t c p h => by cases h) hes hrun
  refine hcalls.mono fun P e hC => ⟨counterEvent_of_check hC.1.1 hC.1.2.1, ?_, ?_, ?_⟩
  · exact fun t c p _ ht hne => absurd (hC.2 t c p ht) hne
  · exact fun t c p _ ht hne => absurd (hC.2 t c p ht) hne
  · exact fun _ _ _ _ _ _ => hC.1.2.2

instance (g : Config) (k : Bytes) (s : Mem) (i : Nat) : Decidable (Taken g k s i) :=
  inferInstanceAs (Decidable (_ ∧ _))

/-- Two callers create the counter and add to it. -/
def raceForCounter : List (Event Call Nat) :=
  [.call 0 (callOn "k3" (.increment 5 0)), .call 1 (callOn "k3" (.increment 7 0)), .step 0, .step 1,
    .step 0, .step 1, .step 0, .step 1]

/-- Both are counted. -/
theorem increments_not_lost_race :
    (get tiny (ofString "k3")).run (after tiny (.init 0) raceForCounter).shared =
      ((after tiny (.init 0) raceForCounter).shared, some (intBytes
        (0 + (counted (ofString "k3") (after tiny (.init 0) raceForCounter)).sum))) := by
  refine (increments_not_lost tiny (ofString "k3") (.init 0) none raceForCounter
    (by decide) (by decide) (by unfold Holder; decide) (along_counterCalm ?_ ?_)).1
    (by decide) (by decide)
  · intro t c hc
    simp only [raceForCounter, mem_cons, not_mem_nil, or_false, reduceCtorEq,
      Event.call.injEq] at hc
    rcases hc with ⟨-, rfl⟩ | ⟨-, rfl⟩ <;> rfl
  · refine ⟨?_, ?_, ?_, ?_, ?_, ?_, ?_, ?_, trivial⟩ <;> decide

/-! ## Schedules that lose an increment, and another key -/

/-- Counters as one would have them: when all calls have returned, `get` reads the sum. -/
def IncrementsCounted (hasher : Hasher) : Prop :=
  ∀ (slots largeSlots : Nat) (k : Bytes) (s : Mem) (o : Option Nat) (es : List (Event Call Nat)),
    let g := Config.init hasher slots largeSlots
    k.length ≤ KEY_MAX → Holder g k s o →
    Run.Along (exec (code g) tick) (CounterEvent g k (reading s o)) (start s) es →
    (∀ t, (after g s es).thread t = none) → counted k (after g s es) ≠ [] →
    Unexpired g k (after g s es).shared →
    ((get g k).run (after g s es).shared).2 =
      some (intBytes (reading s o + (counted k (after g s es)).sum))

/-- And no action of an `increment` changes an entry of another key. -/
def IncrementsApart (hasher : Hasher) : Prop :=
  ∀ (slots largeSlots : Nat) (k : Bytes) (s : Mem) (o : Option Nat) (es : List (Event Call Nat)),
    let g := Config.init hasher slots largeSlots
    k.length ≤ KEY_MAX → Holder g k s o →
    Run.Along (exec (code g) tick) (CounterEvent g k (reading s o)) (start s) es →
    ∀ t c p, (after g s es).thread t = some (c, p) → c.key = k →
      ∀ r i, ((after g s es).shared.entry r i).state = .occupied →
        ((after g s es).shared.entry r i).matches k (g.hash k) = false →
        (p.next (after g s es).shared).1.entry r i = (after g s es).shared.entry r i

/-- The first caller passes the other key and picks the slot behind it, the other key is deleted,
and the second caller creates the counter in its slot. -/
def deleteBetweenIncrements : List (Event Call Nat) :=
  [.call 0 (callOn "k3" (.increment 5 0)), .step 0, .step 0, .step 0,
    .call 2 (callOn "k2" .delete), .step 2, .step 2,
    .call 1 (callOn "k3" (.increment 7 0)), .step 1, .step 1, .step 1, .step 1,
    .step 0]

/-- A caller picks the home slot, and the other key is set there. -/
def setBeforeCommit : List (Event Call Nat) :=
  [.call 0 (callOn "k3" (.increment 5 0)), .step 0, .step 0,
    .call 1 (callOn "k2" (.set [0] 0)), .step 1, .step 1, .step 1]

/-- **An increment is lost, and so is another key.** Of the increments by 5 and by 7, `get` reads 7;
and an increment writes over the live entry of `k2`. -/
theorem increment_lost : ¬ IncrementsCounted Ns.bytesHash ∧ ¬ IncrementsApart Ns.bytesHash := by
  constructor
  · intro h
    have hget := h 16 0 (ofString "k3") otherSet none deleteBetweenIncrements (by decide)
      (by unfold Holder; decide +kernel) ?_ (fun t => ?_) (by decide +kernel) (by decide +kernel)
    · exact absurd hget (by decide +kernel)
    · refine ⟨?_, ?_, ?_, ?_, ?_, ?_, ?_, ?_, ?_, ?_, ?_, ?_, ?_, trivial⟩
      all_goals exact counterEvent_of_check (by decide) (by decide)
    · by_cases ht : t < 3
      · have hall : ∀ t < 3,
            ((after tiny otherSet deleteBetweenIncrements).thread t).isNone = true := by
          decide
        exact Option.isNone_iff_eq_none.1 (hall t ht)
      · refine idle_of_not_called rfl fun c hc => ?_
        have ht' : t = 0 ∨ t = 2 ∨ t = 1 := by
          simp only [deleteBetweenIncrements, mem_cons, not_mem_nil, or_false,
            reduceCtorEq, false_or, Event.call.injEq] at hc
          exact hc.imp And.left (Or.imp And.left And.left)
        omega
  · intro h
    have hacts : ((after tiny (.init 0) setBeforeCommit).thread 0).any (fun x =>
        x.1.key = ofString "k3" &&
          ((x.2.next (after tiny (.init 0) setBeforeCommit).shared).1.entry .small 14).key ≠
            ((after tiny (.init 0) setBeforeCommit).shared.entry .small 14).key) = true := by
      decide +kernel
    obtain ⟨⟨c, p⟩, hp, hx⟩ := (Option.any_eq_true _ _).1 hacts
    simp only [Bool.and_eq_true, decide_eq_true_eq] at hx
    have hsame := h 16 0 (ofString "k3") (.init 0) none setBeforeCommit (by decide)
      (by unfold Holder; decide) ?_ 0 c p hp hx.1 .small 14 (by decide)
      (by decide)
    · exact hx.2 (congrArg Entry.key hsame)
    · refine ⟨?_, ?_, ?_, ?_, ?_, ?_, ?_, trivial⟩
      all_goals exact counterEvent_of_check (by decide) (by decide)

end Askr.Kv
