import Askr.Conc.Run
import Askr.Rcache.Table
import Mathlib.Logic.Function.Basic

/-!
# One leader for a key

`begin` and `end` of `rcache.rs`: of the requests that miss the cache for one key one is told
`Leader` and runs PHP, the others wait. A claim is two words, the hash of the key and a deadline,
written one after the other. A caller of the model is at one access to them, idle, or a leader that
has yet to call `end`. `is_inflight` only loads the two words, and is not here.

Between the two writes a claim has no deadline yet, and looks as if it had run out (`two_leaders`);
so it does while `end` clears the words, and to a caller that loads them around an `end`. Where no
caller meets a claim in such a state (`Whole`) there is one leader at a time (`one_leader`).
-/

namespace Askr.Rcache.Flight

open Function Run

def INFLIGHT_SLOTS : Nat := 4096
/-- In seconds. -/
def COALESCE_TTL : Nat := 30

structure Inflight where
  /-- `0` is free. -/
  keyHash : Nat
  /-- Unix seconds. -/
  deadline : Nat
deriving DecidableEq

/-- Whether the table is mapped, and the hash of keys. -/
structure Config where
  mapped : Bool
  hasher : Hasher

def home (h : Nat) : Nat := h % INFLIGHT_SLOTS

/-- Where a caller is. All but `idle` carry the hash of the key. -/
inductive Pc where
  | idle
  /-- In `begin`, before `now_secs`. -/
  | clock (h : Nat)
  /-- Before the load of `key_hash`. -/
  | load (h now : Nat)
  /-- The hash was found; before the load of `deadline`. -/
  | found (h now : Nat)
  /-- Before the second load of `deadline`, with the hash that was loaded. -/
  | again (h now kh : Nat)
  /-- Before the exchange of `key_hash`. -/
  | exchange (h now kh : Nat)
  /-- The exchange succeeded; before the store of `deadline`. -/
  | store (h now : Nat)
  /-- The exchange failed; before the second load of `key_hash`. -/
  | lost (h : Nat)
  /-- `begin` returned `Leader`, and `end` was not called yet. -/
  | leader (h : Nat)
  /-- In `end`, before the load of `key_hash`. -/
  | endLoad (h : Nat)
  | endDeadline (h : Nat)
  | endHash (h : Nat)
deriving DecidableEq

/-- The table, the clock and the callers. -/
structure Sys where
  slot : Nat → Inflight
  nowSecs : Nat
  pc : Nat → Pc

/-- Zeroed pages, and nobody calling. -/
def Sys.init (nowSecs : Nat) : Sys := { slot := fun _ => ⟨0, 0⟩, nowSecs, pc := fun _ => .idle }

/-- The caller `t` goes on at `c`. A call that returns something else than `Leader` leaves it
idle. -/
def Sys.goto (s : Sys) (t : Nat) (c : Pc) : Sys := { s with pc := update s.pc t c }

def Sys.put (s : Sys) (i : Nat) (x : Inflight) : Sys :=
  { s with slot := update s.slot i x }

section
variable (s : Sys) {t t' : Nat} (c : Pc) {i j : Nat} (x : Inflight)

@[simp] theorem Sys.goto_slot : (s.goto t c).slot = s.slot := rfl
@[simp] theorem Sys.goto_self : (s.goto t c).pc t = c := update_self ..
theorem Sys.goto_ne (h : t' ≠ t) : (s.goto t c).pc t' = s.pc t' := update_of_ne h ..
@[simp] theorem Sys.put_self : (s.put i x).slot i = x := update_self ..
theorem Sys.put_ne (h : j ≠ i) : (s.put i x).slot j = s.slot j := update_of_ne h ..

end

/-- Where `begin` goes on when it has found no live claim of its key: `kh == 0` is looked at before
the deadline is loaded once more. -/
def claimPc (h now kh : Nat) : Pc := if kh = 0 then .exchange h now kh else .again h now kh

/-- One access of the call that `t` is in. -/
def access (s : Sys) (t : Nat) : Pc → Sys
  | .clock h => s.goto t (.load h s.nowSecs)
  | .load h now =>
    let kh := (s.slot (home h)).keyHash
    if kh = h then s.goto t (.found h now) else s.goto t (claimPc h now kh)
  | .found h now =>
    if (s.slot (home h)).deadline > now then s.goto t .idle else s.goto t (claimPc h now h)
  | .again h now kh =>
    if (s.slot (home h)).deadline ≤ now then s.goto t (.exchange h now kh)
    -- the slot is busy with a different key
    else s.goto t (.leader h)
  | .exchange h now kh =>
    if (s.slot (home h)).keyHash = kh then
      (s.put (home h) { s.slot (home h) with keyHash := h }).goto t (.store h now)
    else s.goto t (.lost h)
  | .store h now =>
    (s.put (home h) { s.slot (home h) with deadline := u64Add now COALESCE_TTL }).goto t (.leader h)
  | .lost h => if (s.slot (home h)).keyHash = h then s.goto t .idle else s.goto t (.leader h)
  | .endLoad h =>
    if (s.slot (home h)).keyHash = h then s.goto t (.endDeadline h) else s.goto t .idle
  | .endDeadline h => (s.put (home h) { s.slot (home h) with deadline := 0 }).goto t (.endHash h)
  | .endHash h => (s.put (home h) { s.slot (home h) with keyHash := 0 }).goto t .idle
  | .idle => s
  | .leader _ => s

inductive Event where
  /-- An idle caller calls `begin`. -/
  | begin (t : Nat) (key : Bytes)
  /-- A leader calls `end` for its key. -/
  | finish (t : Nat)
  /-- A caller makes its next access. -/
  | step (t : Nat)
  | tick (d : Nat)
deriving DecidableEq

/-- What one event does. `end` is called by a caller that was told `Leader`, and once. -/
def exec (g : Config) (s : Sys) : Event → Sys
  | .begin t key =>
    if s.pc t = .idle then
      if g.mapped then s.goto t (.clock (hashBytes g.hasher key))
      else s.goto t (.leader (hashBytes g.hasher key))
    else s
  | .finish t =>
    match s.pc t with
    | .leader h => if g.mapped then s.goto t (.endLoad h) else s.goto t .idle
    | _ => s
  | .step t => access s t (s.pc t)
  | .tick d => { s with nowSecs := s.nowSecs + d }

/-- The caller was told `Leader` for the hash, and its `end` has not returned. -/
def Pc.leads (h : Nat) : Pc → Bool
  | .leader h' | .endLoad h' | .endDeadline h' | .endHash h' => h' = h
  | _ => false

def Event.key? : Event → Option Bytes
  | .begin _ key => some key
  | _ => none

/-- No other key hashes to the slot of `k`, and no call runs past the deadline of a claim there. -/
structure Allowed (g : Config) (k : Bytes) (s : Sys) (e : Event) : Prop where
  key : ∀ key ∈ e.key?, home (hashBytes g.hasher key) = home (hashBytes g.hasher k) → key = k
  inTime : (s.slot (home (hashBytes g.hasher k))).deadline = 0 ∨
    s.nowSecs < (s.slot (home (hashBytes g.hasher k))).deadline

instance (g : Config) (k : Bytes) (s : Sys) (e : Event) : Decidable (Allowed g k s e) :=
  decidable_of_iff (_ ∧ _) ⟨fun h => ⟨h.1, h.2⟩, fun h => ⟨h.key, h.inTime⟩⟩

/-- Of the callers of a key, one leads at a time. -/
def OneLeader : Prop :=
  ∀ (g : Config) (k : Bytes) (nowSecs : Nat) (es : List Event), g.mapped = true →
    Along (exec g) (Allowed g k) (.init nowSecs) es → ∀ t t',
      ((runs (exec g) (.init nowSecs) es).pc t).leads (hashBytes g.hasher k) = true →
      ((runs (exec g) (.init nowSecs) es).pc t').leads (hashBytes g.hasher k) = true → t = t'

/-- The first caller has taken the slot and not yet stored its deadline; the second one finds the
hash with the deadline `0`, exchanges the hash for itself and leads too. -/
theorem two_leaders : ¬ OneLeader := by
  intro h
  have hrun := h ⟨true, fun _ => 7⟩ [107] 1700000000
    ([.begin 0 [107], .step 0, .step 0, .step 0, .begin 1 [107], .step 1, .step 1, .step 1,
      .step 1, .step 1, .step 1, .step 0]) rfl (by decide) 0 1 (by decide)
    (by decide)
  cases hrun

/-! ## Claims that are seen whole -/

/-- What a caller at this point finds in the slot of its key: a claim whose hash it has seen has a
deadline, and after a lost exchange the claim it lost to is there. -/
def Pc.Meets (h : Nat) (x : Inflight) : Pc → Prop
  | .found h' _ => h' = h → x.deadline ≠ 0
  | .lost h' => h' = h → x.keyHash = h
  | _ => True

instance (h : Nat) (x : Inflight) (c : Pc) : Decidable (c.Meets h x) := by
  cases c <;> unfold Pc.Meets <;> infer_instance

/-- No caller meets a claim of `k` that is being written or cleared. -/
def Whole (g : Config) (k : Bytes) (s : Sys) : Event → Prop
  | .step t => (s.pc t).Meets (hashBytes g.hasher k) (s.slot (home (hashBytes g.hasher k)))
  | _ => True

instance (g : Config) (k : Bytes) (s : Sys) (e : Event) : Decidable (Whole g k s e) := by
  cases e <;> unfold Whole <;> infer_instance

/-- The hash a caller is about. -/
def Pc.hash? : Pc → Option Nat
  | .idle => none
  | .clock h | .load h _ | .found h _ | .again h _ _ | .exchange h _ _ | .store h _ | .lost h
  | .leader h | .endLoad h | .endDeadline h | .endHash h => some h

/-- The caller has taken the slot of the hash, and not yet given it back. -/
def Pc.holds (h : Nat) : Pc → Bool
  | .store h' _ => h' = h
  | c => c.leads h

/-- Where a caller can be while claims are seen whole: one that is after the slot of `h` takes it
only when it is free. -/
def Pc.Ok (h nowSecs : Nat) : Pc → Prop
  | .load h' now | .found h' now => h' = h → now ≤ nowSecs
  | .again h' _ _ => h' ≠ h
  | .exchange h' _ kh => h' = h → kh = 0
  | _ => True

/-- What holds in every state. -/
structure Inv (h : Nat) (s : Sys) : Prop where
  /-- Callers about another hash are after another slot. -/
  apart : ∀ t, ∀ h' ∈ (s.pc t).hash?, home h' = home h → h' = h
  ok : ∀ t, (s.pc t).Ok h s.nowSecs
  word : (s.slot (home h)).keyHash = 0 ∨ (s.slot (home h)).keyHash = h
  held : ∀ t, (s.pc t).holds h = true → (s.slot (home h)).keyHash = h
  unique : ∀ t t', (s.pc t).holds h = true → (s.pc t').holds h = true → t = t'

theorem Pc.holds_of_leads {h : Nat} {c : Pc} (hc : c.leads h = true) : c.holds h = true := by
  cases c with
  | leader | endLoad | endDeadline | endHash => exact hc
  | _ => cases hc

/-- What one access of `t` does to the claim of `h`: nothing, it takes the slot, which was free, or
it gives it back. -/
inductive Claims (h : Nat) (s s' : Sys) (t : Nat) : Prop where
  | keeps : (s'.slot (home h)).keyHash = (s.slot (home h)).keyHash →
      ((s'.pc t).holds h = true → (s.pc t).holds h = true) → Claims h s s' t
  | takes : (s.slot (home h)).keyHash = 0 → (s'.slot (home h)).keyHash = h → Claims h s s' t
  | frees : (s.pc t).holds h = true → (s'.slot (home h)).keyHash = 0 →
      (s'.pc t).holds h = false → Claims h s s' t

section
variable {h : Nat} {s s' : Sys} {t : Nat}

/-- A caller moves: it is where it may be, the others are where they were. -/
theorem Inv.move (hi : Inv h s) (hh : h ≠ 0) (hclock : s'.nowSecs = s.nowSecs)
    (hothers : ∀ t', t' ≠ t → s'.pc t' = s.pc t')
    (hapart : ∀ h' ∈ (s'.pc t).hash?, home h' = home h → h' = h)
    (hok : (s'.pc t).Ok h s.nowSecs) (hc : Claims h s s' t) : Inv h s' := by
  have hapart' : ∀ t', ∀ h' ∈ (s'.pc t').hash?, home h' = home h → h' = h := by
    intro t'
    rcases eq_or_ne t' t with rfl | ht
    · exact hapart
    · rw [hothers t' ht]
      exact hi.apart t'
  have hok' : ∀ t', (s'.pc t').Ok h s'.nowSecs := by
    intro t'
    rw [hclock]
    rcases eq_or_ne t' t with rfl | ht
    · exact hok
    · rw [hothers t' ht]
      exact hi.ok t'
  cases hc with
  | keeps hword hholds =>
    have hbefore : ∀ t', (s'.pc t').holds h = true → (s.pc t').holds h = true := by
      intro t' ht'
      rcases eq_or_ne t' t with rfl | ht
      · exact hholds ht'
      · rwa [hothers t' ht] at ht'
    refine ⟨hapart', hok', hword ▸ hi.word, fun t' ht' => ?_, fun t₁ t₂ h₁ h₂ => ?_⟩
    · rw [hword]
      exact hi.held t' (hbefore t' ht')
    · exact hi.unique t₁ t₂ (hbefore t₁ h₁) (hbefore t₂ h₂)
  | takes hfree hword =>
    have honly : ∀ t', (s'.pc t').holds h = true → t' = t := by
      intro t' ht'
      by_contra ht
      rw [hothers t' ht] at ht'
      exact hh ((hi.held t' ht').symm.trans hfree)
    refine ⟨hapart', hok', .inr hword, fun _ _ => hword, fun t₁ t₂ h₁ h₂ => ?_⟩
    rw [honly t₁ h₁, honly t₂ h₂]
  | frees hheld hword hholds =>
    have hnone : ∀ t', (s'.pc t').holds h = false := by
      intro t'
      rcases eq_or_ne t' t with rfl | ht
      · exact hholds
      · rw [hothers t' ht, Bool.eq_false_iff]
        exact fun ht' => ht (hi.unique t' t ht' hheld)
    refine ⟨hapart', hok', .inl hword, fun t' ht' => ?_, fun t₁ t₂ h₁ _ => ?_⟩
    · rw [hnone t'] at ht'
      cases ht'
    · rw [hnone t₁] at h₁
      cases h₁

/-- An access that does not write the slot. -/
theorem Inv.goto (hi : Inv h s) (hh : h ≠ 0) {c : Pc}
    (hapart : ∀ h' ∈ c.hash?, home h' = home h → h' = h) (hok : c.Ok h s.nowSecs)
    (hholds : c.holds h = true → (s.pc t).holds h = true) : Inv h (s.goto t c) := by
  refine hi.move hh rfl (fun t' ht => s.goto_ne c ht) ?_ ?_ (.keeps rfl ?_)
  · rwa [Sys.goto_self]
  · rwa [Sys.goto_self]
  · rwa [Sys.goto_self]

/-- An access that writes the slot of its own hash. -/
theorem Inv.write (hi : Inv h s) (hh : h ≠ 0) {h₀ : Nat} (hpc : (s.pc t).hash? = some h₀) {c : Pc}
    (hc : ∀ h' ∈ c.hash?, h' = h₀) (hok : c.Ok h s.nowSecs) {x : Inflight}
    (hclaims : h₀ = h → Claims h s ((s.put (home h₀) x).goto t c) t)
    (hother : h₀ ≠ h → c.holds h = false) : Inv h ((s.put (home h₀) x).goto t c) := by
  have hhome : home h₀ = home h → h₀ = h := hi.apart t h₀ hpc
  refine hi.move hh rfl (fun t' ht => Sys.goto_ne _ c ht) ?_ ?_ ?_
  · rw [Sys.goto_self]
    intro h' hh'
    rw [hc h' hh']
    exact hhome
  · rwa [Sys.goto_self]
  · rcases eq_or_ne h₀ h with heq | hne
    · exact hclaims heq
    · refine .keeps ?_ ?_
      · rw [Sys.goto_slot, Sys.put_ne]
        exact fun heq => hne (hhome heq.symm)
      · rw [Sys.goto_self, hother hne]
        exact fun hfalse => absurd hfalse Bool.false_ne_true

/-- The start of a claim, by a caller that found none. -/
theorem Inv.claim (hi : Inv h s) (hh : h ≠ 0) {h₀ now kh : Nat} (hpc : (s.pc t).hash? = some h₀)
    (hkh : h₀ = h → kh = 0) : Inv h (s.goto t (claimPc h₀ now kh)) := by
  rw [claimPc]
  split
  · refine hi.goto hh ?_ hkh (fun hc => ?_)
    · rintro h' ⟨⟩
      exact hi.apart t h₀ hpc
    · cases hc
  · rename_i hne
    refine hi.goto hh ?_ (fun heq => hne (hkh heq)) (fun hc => ?_)
    · rintro h' ⟨⟩
      exact hi.apart t h₀ hpc
    · cases hc

theorem Inv.leave (hi : Inv h s) (hh : h ≠ 0) : Inv h (s.goto t .idle) := by
  refine hi.goto hh (fun h' hh' => ?_) trivial (fun hc => ?_)
  · cases hh'
  · cases hc

/-- **What one access keeps.** -/
theorem Inv.access (hi : Inv h s) (hh : h ≠ 0)
    (hin : (s.slot (home h)).deadline = 0 ∨ s.nowSecs < (s.slot (home h)).deadline)
    (hm : (s.pc t).Meets h (s.slot (home h))) : Inv h (access s t (s.pc t)) := by
  have hapart := hi.apart t
  have hok := hi.ok t
  cases hpc : s.pc t with
  | idle | leader => exact hi
  | clock h₀ =>
    rw [hpc] at hapart
    exact hi.goto hh hapart (fun _ => Nat.le_refl _) (fun hc => by cases hc)
  | load h₀ now =>
    rw [hpc] at hapart hok
    simp only [Flight.access]
    split
    · exact hi.goto hh hapart hok (fun hc => by cases hc)
    · rename_i hne
      refine hi.claim hh (by rw [hpc]; rfl) fun heq => ?_
      subst heq
      exact hi.word.resolve_right hne
  | found h₀ now =>
    rw [hpc] at hok hm
    simp only [Flight.access]
    split
    · exact hi.leave hh
    · rename_i hpast
      refine hi.claim hh (by rw [hpc]; rfl) fun heq => ?_
      subst heq
      have hlive := hin.resolve_left (hm rfl)
      exact absurd (Nat.lt_of_le_of_lt (hok rfl) hlive) hpast
  | again h₀ now kh =>
    rw [hpc] at hapart hok
    have hne : h₀ ≠ h := hok
    simp only [Flight.access]
    split
    · exact hi.goto hh hapart (fun heq => absurd heq hne) (fun hc => by cases hc)
    · refine hi.goto hh hapart trivial (fun hc => absurd (of_decide_eq_true hc) hne)
  | exchange h₀ now kh =>
    rw [hpc] at hapart hok
    simp only [Flight.access]
    split
    · rename_i hkh
      refine hi.write (c := .store h₀ now) hh (by rw [hpc]; rfl) (fun h' hh' => by cases hh'; rfl)
        trivial (fun heq => ?_) (fun hne => decide_eq_false hne)
      subst heq
      refine .takes (hkh.trans (hok rfl)) ?_
      rw [Sys.goto_slot, Sys.put_self]
    · exact hi.goto hh hapart trivial (fun hc => by cases hc)
  | store h₀ now =>
    refine hi.write (c := .leader h₀) hh (by rw [hpc]; rfl) (fun h' hh' => by cases hh'; rfl)
      trivial (fun heq => ?_) (fun hne => decide_eq_false hne)
    subst heq
    refine .keeps ?_ (fun _ => ?_)
    · rw [Sys.goto_slot, Sys.put_self]
    · rw [hpc]
      exact decide_eq_true rfl
  | lost h₀ =>
    rw [hpc] at hapart hm
    simp only [Flight.access]
    split
    · exact hi.leave hh
    · rename_i hne
      refine hi.goto hh hapart trivial (fun hc => ?_)
      obtain rfl : h₀ = h := of_decide_eq_true hc
      exact absurd (hm rfl) hne
  | endLoad h₀ =>
    rw [hpc] at hapart
    simp only [Flight.access]
    split
    · refine hi.goto hh hapart trivial (fun hc => ?_)
      rw [hpc]
      exact hc
    · exact hi.leave hh
  | endDeadline h₀ =>
    refine hi.write (c := .endHash h₀) hh (by rw [hpc]; rfl) (fun h' hh' => by cases hh'; rfl)
      trivial (fun heq => ?_) (fun hne => decide_eq_false hne)
    subst heq
    refine .keeps ?_ (fun _ => ?_)
    · rw [Sys.goto_slot, Sys.put_self]
    · rw [hpc]
      exact decide_eq_true rfl
  | endHash h₀ =>
    refine hi.write (c := .idle) hh (by rw [hpc]; rfl) (fun h' hh' => by cases hh') trivial
      (fun heq => ?_) (fun _ => rfl)
    subst heq
    refine .frees ?_ ?_ ?_
    · rw [hpc]
      exact decide_eq_true rfl
    · rw [Sys.goto_slot, Sys.put_self]
    · rw [Sys.goto_self]
      rfl

end

/-- **What one event keeps.** -/
theorem Inv.exec {g : Config} {k : Bytes} {s : Sys} {e : Event} (hmapped : g.mapped = true)
    (hi : Inv (hashBytes g.hasher k) s) (ha : Allowed g k s e) (hw : Whole g k s e) :
    Inv (hashBytes g.hasher k) (exec g s e) := by
  have hh := hashBytes_ne_zero g.hasher k
  cases e with
  | begin t key =>
    simp only [Flight.exec, hmapped, if_true]
    split
    · refine hi.goto hh ?_ trivial (fun hc => by cases hc)
      rintro h' ⟨⟩ hhome
      rw [ha.key key rfl hhome]
    · exact hi
  | finish t =>
    simp only [Flight.exec, hmapped, if_true]
    split
    · rename_i h₀ hpc
      have hapart := hi.apart t
      rw [hpc] at hapart
      refine hi.goto hh hapart trivial (fun hc => ?_)
      rw [hpc]
      exact hc
    · exact hi
  | step t => exact hi.access hh ha.inTime hw
  | tick d =>
    refine ⟨hi.apart, fun t => ?_, hi.word, hi.held, hi.unique⟩
    have hok := hi.ok t
    simp only [Flight.exec]
    cases hpc : s.pc t with
    | load h₀ now | found h₀ now =>
      rw [hpc] at hok
      exact fun heq => Nat.le_trans (hok heq) (Nat.le_add_right _ _)
    | again | exchange =>
      rw [hpc] at hok
      exact hok
    | _ => trivial

theorem inv_init (h nowSecs : Nat) : Inv h (.init nowSecs) := by
  refine ⟨fun t h' hh' => ?_, fun t => trivial, .inl rfl, fun t ht => ?_, fun t t' ht => ?_⟩
  · cases hh'
  · cases ht
  · cases ht

/-- **One leader for a key**, in every schedule in which no caller meets a claim that is being
written or cleared. -/
theorem one_leader {g : Config} {k : Bytes} {nowSecs : Nat} {es : List Event}
    (hmapped : g.mapped = true) (ha : Along (exec g) (Allowed g k) (.init nowSecs) es)
    (hw : Along (exec g) (Whole g k) (.init nowSecs) es) (t t' : Nat)
    (ht : ((runs (exec g) (.init nowSecs) es).pc t).leads (hashBytes g.hasher k) = true)
    (ht' : ((runs (exec g) (.init nowSecs) es).pc t').leads (hashBytes g.hasher k) = true) :
    t = t' := by
  have hend : Inv (hashBytes g.hasher k) (runs (exec g) (.init nowSecs) es) :=
    (ha.and hw).inv (fun _ _ hc hi => hi.exec hmapped hc.1 hc.2) (inv_init _ nowSecs)
  exact hend.unique t t' (Pc.holds_of_leads ht) (Pc.holds_of_leads ht')

/-- The first caller leads, the second one follows it; the first one ends, and a third one leads
while a fourth one is on its way. -/
def handover : List Event :=
  [.begin 0 [107], .step 0, .step 0, .step 0, .step 0, .begin 1 [107], .step 1, .tick 2, .step 1,
    .step 1, .finish 0, .step 0, .step 0, .step 0, .begin 2 [107], .step 2, .step 2, .begin 3 [107],
    .step 3, .step 3, .step 2, .step 3, .step 2, .step 3]

theorem one_leader_handover :
    ((runs (exec ⟨true, fun _ => 7⟩) (.init 1700000000) handover).pc 2).leads 7 = true ∧
      ¬ ((runs (exec ⟨true, fun _ => 7⟩) (.init 1700000000) handover).pc 3).leads 7 = true := by
  have hlead : ((runs (exec ⟨true, fun _ => 7⟩) (.init 1700000000) handover).pc 2).leads 7 = true :=
    by decide
  refine ⟨hlead, fun hother => ?_⟩
  have heq : 3 = 2 := one_leader (g := ⟨true, fun _ => 7⟩) (k := [107]) rfl (by decide)
    (by decide) 3 2 hother hlead
  cases heq

end Askr.Rcache.Flight
