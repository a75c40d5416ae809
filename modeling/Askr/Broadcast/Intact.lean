import Askr.Broadcast.Ring

/-!
# Integrity of the ring

Along a run in which no two publishes are ever inside one slot (`Apart`), a slot whose marker is not
0 holds the whole event of that number, which was committed (`Sound`). A number comes into a marker
once, so a reader that finds it there before and after it copies the slot has copied what was
committed: every event that is delivered was published (`delivered_published`).

Slots come round after 1024 numbers, and a publish that sleeps inside its slot may wake up when the
next one of that slot has committed. A reader then delivers a mixture (`mixed_delivered`).
-/

namespace Askr.Broadcast

open Conc Conc.Prog Function List Run Nat

/-- A marker that is not 0 stands for an event that was committed, and the slot holds it. -/
def Sound (r : Ring) : Prop :=
  ∀ i, r.slot i .seq ≠ 0 → (r.slot i .seq, readEvent.eval (r.slot i)) ∈ r.log

/-! ## Publishes and the ring -/

/-- The ring while the publishes of the callers are under way: `num t` is the number that the
caller `t` has taken and not committed. -/
structure Books (num : Nat → Option Nat) (r : Ring) : Prop where
  pending : ∀ t n, num t = some n → 0 < n ∧ n ≤ r.writeSeq ∧ ∀ e, (n, e) ∉ r.log
  own : ∀ t t' n, num t = some n → num t' = some n → t = t'
  numbered : ∀ x ∈ r.log, x.1 ≤ r.writeSeq
  apart : Apart r
  sound : Sound r

section
variable {num : Nat → Option Nat} {r : Ring} {t n : Nat} {e : Delivered}

theorem books_zeroed : Books (fun _ => none) .zeroed where
  pending t n h := by cases h
  own t t' n h := by cases h
  numbered x hx := by cases hx
  apart m hm := by cases hm
  sound i hne := absurd rfl hne

theorem Books.take (h : Books num r) (t : Nat) : Books (update num t (some (r.writeSeq + 1)))
      { r with writeSeq := r.writeSeq + 1 } where
  pending t' n hn := by
    by_cases htt : t' = t
    · rw [htt, update_self, Option.some.injEq] at hn
      subst hn
      refine ⟨succ_pos _, Nat.le_refl _, fun x hx => ?_⟩
      exact absurd (h.numbered _ hx) (not_succ_le_self _)
    · rw [update_of_ne htt] at hn
      obtain ⟨hpos, hle, hnot⟩ := h.pending t' n hn
      exact ⟨hpos, le_succ_of_le hle, hnot⟩
  own t' t'' n hn' hn'' := by
    have hnew : ∀ u, num u ≠ some (r.writeSeq + 1) := fun u hu =>
      absurd (h.pending u _ hu).2.1 (not_succ_le_self _)
    by_cases h' : t' = t <;> by_cases h'' : t'' = t
    · rw [h', h'']
    · rw [h', update_self] at hn'
      rw [update_of_ne h''] at hn''
      exact absurd (hn''.trans hn'.symm) (hnew t'')
    · rw [h'', update_self] at hn''
      rw [update_of_ne h'] at hn'
      exact absurd (hn'.trans hn''.symm) (hnew t')
    · rw [update_of_ne h'] at hn'
      rw [update_of_ne h''] at hn''
      exact h.own t' t'' n hn' hn''
  numbered x hx := le_succ_of_le (h.numbered x hx)
  apart := h.apart
  sound := h.sound

theorem Books.enter (h : Books num r)
    (hapart : Apart { r.put (slotOf n) .seq 0 with inside := n :: r.inside }) :
    Books num { r.put (slotOf n) .seq 0 with inside := n :: r.inside } where
  pending := h.pending
  own := h.own
  numbered := h.numbered
  apart := hapart
  sound i hi := by
    dsimp only at hi ⊢
    rcases eq_or_ne i (slotOf n) with rfl | hne
    · simp at hi
    · rw [Ring.put_slot_ne hne] at hi ⊢
      exact h.sound i hi

theorem Books.store (h : Books num r) {w : Field × Nat} (hw : w.1 ≠ .seq)
    (hzero : r.slot (slotOf n) .seq = 0) : Books num (r.put (slotOf n) w.1 w.2) where
  pending := h.pending
  own := h.own
  numbered := h.numbered
  apart := h.apart
  sound i hi := by
    rcases eq_or_ne i (slotOf n) with rfl | hne
    · rw [Ring.put_slot_self, update_of_ne hw.symm] at hi
      exact absurd hzero hi
    · rw [Ring.put_slot_ne hne] at hi ⊢
      exact h.sound i hi

theorem Books.commit (h : Books num r) (hnum : num t = some n)
    (hslot : readEvent.eval (r.slot (slotOf n)) = e) : Books (update num t none)
      { r.put (slotOf n) .seq n with
        inside := r.inside.filter (· ≠ n), log := (n, e) :: r.log } where
  pending t' n' hn' := by
    by_cases htt : t' = t
    · rw [htt, update_self] at hn'
      cases hn'
    · rw [update_of_ne htt] at hn'
      obtain ⟨hpos, hle, hnot⟩ := h.pending t' n' hn'
      refine ⟨hpos, hle, fun x hx => ?_⟩
      rcases mem_cons.1 hx with heq | hx
      · cases heq
        exact htt (h.own t' t n hn' hnum)
      · exact hnot x hx
  own t' t'' n' hn' hn'' := by
    have hold : ∀ u, update num t none u = some n' → num u = some n' := by
      intro u hu
      by_cases hut : u = t
      · rw [hut, update_self] at hu
        cases hu
      · rwa [update_of_ne hut] at hu
    exact h.own t' t'' n' (hold t' hn') (hold t'' hn'')
  numbered x hx := by
    rcases mem_cons.1 hx with rfl | hx
    · exact (h.pending t n hnum).2.1
    · exact h.numbered x hx
  apart m hm m' hm' := h.apart m (mem_filter.1 hm).1 m' (mem_filter.1 hm').1
  sound i hi := by
    dsimp only at hi ⊢
    rcases eq_or_ne i (slotOf n) with rfl | hne
    · rw [Ring.put_slot_self, update_self, readEvent_eval_update, hslot]
      exact .head _
    · rw [Ring.put_slot_ne hne] at hi ⊢
      exact .tail _ (h.sound i hi)

end

/-! ## Callers -/

/-- What a caller is doing: it looks, it is about to take a number, it has one and has not touched
its slot, or it is inside its slot and has made the first of its stores. -/
inductive Doing (r : Ring) : Option Nat → Call → Prog Ring Res → Prop
  | looks {c : Call} {p : Prog Ring Res} (hp : p.Guar Eq) (hc : ∀ e, c ≠ .publish e) :
    Doing r none c p
  | starts {e : Delivered} (hc : e.1.length ≤ CHAN_MAX) (hp : e.2.length ≤ PAYLOAD_MAX) :
    Doing r none (.publish e) (code (.publish e))
  | waits {n : Nat} {e : Delivered} (hc : e.1.length ≤ CHAN_MAX) (hp : e.2.length ≤ PAYLOAD_MAX) :
    Doing r (some n) (.publish e) ((entering n e).map .published)
  | inside {n : Nat} {e : Delivered} {made left : List (Field × Nat)} {old : Field → Nat}
    (hc : e.1.length ≤ CHAN_MAX) (hp : e.2.length ≤ PAYLOAD_MAX) (hin : n ∈ r.inside)
    (hfill : fill e = made ++ left) (hold : old .seq = 0)
    (hslot : r.slot (slotOf n) = Cells.apply old made) :
    Doing r (some n) (.publish e) ((storing n e left).map .published)

/-- What a run keeps in which no two publishes are inside one slot. -/
structure RingInv (num : Nat → Option Nat) (P : RingPool) : Prop where
  books : Books num P.shared
  doing : ∀ t c p, P.thread t = some (c, p) → Doing P.shared (num t) c p
  idle : ∀ t, P.thread t = none → num t = none
  returned : ∀ n e, (n, e) ∈ P.shared.log ↔ Returned P n e

theorem ringInv_start : RingInv (fun _ => none) (Pool.start .zeroed) where
  books := books_zeroed
  doing t c p h := by cases h
  idle t h := rfl
  returned n e := by simp [Pool.start, Ring.zeroed, Returned]

section
variable {num num' : Nat → Option Nat} {P : RingPool} {t n : Nat} {c : Call} {r : Ring}
  {p : Prog Ring Res}

/-- The caller `t` goes on, and keeps out of the slots that others are inside of. -/
theorem RingInv.settle (h : RingInv num P) (hbooks : Books num' r)
    (hnum : ∀ u, u ≠ t → num' u = num u)
    (hkeep : ∀ u m, u ≠ t → num u = some m → m ∈ P.shared.inside →
      m ∈ r.inside ∧ r.slot (slotOf m) = P.shared.slot (slotOf m))
    (hdoing : (∀ a, p ≠ .ret a) → Doing r (num' t) c p) (hidle : ∀ a, p = .ret a → num' t = none)
    (hlog : ∀ m x, (m, x) ∈ r.log ↔
      (m, x) ∈ P.shared.log ∨ c = .publish x ∧ p = .ret (.published (some m))) :
    RingInv num' (P.settle t c r p) where
  books := by rwa [Pool.settle_shared]
  doing u c' p' hu := by
    rw [Pool.settle_shared]
    rcases Pool.settle_thread_cases hu with ⟨rfl, rfl, rfl, hret⟩ | ⟨hne, hthread⟩
    · exact hdoing hret
    · rw [hnum u hne]
      have hd := h.doing u c' p' hthread
      generalize hm : num u = o at hd
      cases hd with
      | looks hp hc => exact .looks hp hc
      | starts hc hp => exact .starts hc hp
      | waits hc hp => exact .waits hc hp
      | inside hc hp hin hfill hold hslot =>
        obtain ⟨hin', hslot'⟩ := hkeep u _ hne hm hin
        exact .inside hc hp hin' hfill hold (hslot'.trans hslot)
  idle u hu := by
    by_cases hut : u = t
    · subst hut
      cases p with
      | ret a => exact hidle a rfl
      | act f k =>
        rw [Pool.settle_thread_of_ne_ret (by simp)] at hu
        cases hu
    · rw [hnum u hut]
      rw [Pool.settle_thread_ne hut] at hu
      exact h.idle u hu
  returned m x := by
    rw [Pool.settle_shared, hlog, h.returned, Returned, Returned]
    cases p with
    | act f k => simp [Pool.settle]
    | ret a =>
      simp only [Pool.settle, mem_cons, Ret.mk.injEq, Prog.ret.injEq]
      constructor
      · rintro (⟨u, hu⟩ | ⟨rfl, rfl⟩)
        exacts [⟨u, .inr hu⟩, ⟨t, .inl ⟨rfl, rfl, rfl⟩⟩]
      · rintro ⟨u, ⟨-, rfl, rfl⟩ | hu⟩
        exacts [.inr ⟨rfl, rfl⟩, .inl ⟨u, hu⟩]

/-- The caller `t` goes on and the ring is as it was. -/
theorem RingInv.settle_same (h : RingInv num P) (hnum : num t = none)
    (hdoing : (∀ a, p ≠ .ret a) → Doing P.shared none c p)
    (hnone : ∀ m x, ¬ (c = .publish x ∧ p = .ret (.published (some m)))) :
    RingInv num (P.settle t c P.shared p) :=
  h.settle h.books (fun _ _ => rfl) (fun _ _ _ _ hin => ⟨hin, rfl⟩) (fun hp => hnum ▸ hdoing hp)
    (fun _ _ => hnum) fun m x => (or_iff_left (hnone m x)).symm

/-- A caller that was idle begins. -/
theorem RingInv.call (h : RingInv num P) (hidle : P.thread t = none) :
    RingInv num (P.settle t c P.shared (code c)) := by
  refine h.settle_same (h.idle t hidle) (fun hret => ?_) ?_
  · cases c with
    | publish e =>
      refine .starts (Nat.le_of_not_lt fun hbig => ?_) (Nat.le_of_not_lt fun hbig => ?_)
      · exact hret (.published none) (by rw [code, publish, if_pos (.inl hbig)]; rfl)
      · exact hret (.published none) (by rw [code, publish, if_pos (.inr hbig)]; rfl)
    | currentSeq | readFrom last => exact .looks (code_looks (by simp)) (by simp)
  · rintro m x ⟨rfl, hret⟩
    rw [code, publish] at hret
    split at hret
    · cases Prog.ret.inj hret
    · cases hret

/-- Two publishes inside slots are inside different ones. -/
theorem RingInv.slot_ne (h : RingInv num P) {u m : Nat} (hnum : num t = some n)
    (hin : n ∈ P.shared.inside) (hne : u ≠ t) (hum : num u = some m) (hm : m ∈ P.shared.inside) :
    m ≠ n ∧ slotOf m ≠ slotOf n := by
  have hmn : m ≠ n := by
    rintro rfl
    exact hne (h.books.own u t m hum hnum)
  exact ⟨hmn, fun hslot => hmn (h.books.apart m hm n hin hslot)⟩

/-! ## One event -/

/-- What a reader relies on: numbers and the log grow, and a slot with the marker of an event that
was committed before has not changed since. -/
structure RingRely (r r' : Ring) : Prop where
  sound : Sound r'
  log : ∀ x ∈ r.log, x ∈ r'.log
  still : ∀ i e, r'.slot i .seq ≠ 0 → (r'.slot i .seq, e) ∈ r.log → r'.slot i = r.slot i

theorem RingRely.refl {r : Ring} (h : Sound r) : RingRely r r :=
  ⟨h, fun _ => id, fun _ _ _ _ => rfl⟩

theorem RingRely.trans {r r' r'' : Ring} (h : RingRely r r') (h' : RingRely r' r'') :
    RingRely r r'' := by
  refine ⟨h'.sound, fun x hx => h'.log x (h.log x hx), ?_⟩
  intro i e hne hlog
  have hlast := h'.still i e hne (h.log _ hlog)
  rw [hlast] at hne hlog ⊢
  exact h.still i e hne hlog

/-- The slot of `n` holds the event of that number. -/
def Holds (n : Nat) (e : Delivered) (r : Ring) : Prop :=
  r.slot (slotOf n) .seq = n ∧ readEvent.eval (r.slot (slotOf n)) = e

/-- What an event can do to the ring: a slot that changes has a publish inside it, before or after
the event, and what is committed is in its slot. -/
structure RingStep (r r' : Ring) : Prop where
  rely : RingRely r r'
  touch : ∀ i, r'.slot i ≠ r.slot i → ∃ m, slotOf m = i ∧ (m ∈ r.inside ∨ m ∈ r'.inside)
  fresh : ∀ x ∈ r'.log, x ∉ r.log → Holds x.1 x.2 r'

theorem RingStep.of_same {r r' : Ring} (h : Sound r) (hslot : r'.slot = r.slot)
    (hlog : r'.log = r.log) : RingStep r r' := by
  refine ⟨⟨?_, fun x hx => hlog ▸ hx, fun i _ _ _ => congrFun hslot i⟩,
    fun i hi => absurd (congrFun hslot i) hi, fun x hx hnot => absurd (hlog ▸ hx) hnot⟩
  intro i hi
  rw [hslot, hlog] at *
  exact h i hi

theorem RingStep.of_store {r r' : Ring} {n : Nat} (h : Sound r')
    (hslot : ∀ i, i ≠ slotOf n → r'.slot i = r.slot i) (hzero : r'.slot (slotOf n) .seq = 0)
    (hlog : r'.log = r.log) (hin : n ∈ r'.inside) : RingStep r r' := by
  refine ⟨⟨h, fun x hx => hlog ▸ hx, fun i _ hi _ => hslot i ?_⟩, fun i hi => ⟨n, ?_, .inr hin⟩,
    fun x hx hnot => absurd (hlog ▸ hx) hnot⟩
  · rintro rfl
    exact hi hzero
  · exact Classical.not_not.1 fun hne => hi (hslot i (Ne.symm hne))

/-- **One action** of a caller. -/
theorem RingInv.act (h : RingInv num P) {u : Ring → Ring} {k : Ring → Prog Ring Res}
    (hthread : P.thread t = some (c, .act u k)) (hs : P.shared.Unspent)
    (hapart : Apart (u P.shared)) :
    (∃ num', RingInv num' (P.settle t c (u P.shared) (k P.shared))) ∧
      RingStep P.shared (u P.shared) := by
  have hdoing := h.doing t c _ hthread
  generalize hnum : num t = o at hdoing
  generalize hprog : Prog.act u k = p at hdoing
  cases hdoing with
  | looks hp hc =>
    rw [← hprog] at hp
    obtain ⟨hstay, hk⟩ := hp P.shared
    rw [← hstay]
    exact ⟨⟨num, h.settle_same hnum (fun _ => .looks hk hc) fun _ x hx => hc x hx.1⟩,
      .of_same h.books.sound rfl rfl⟩
  | @starts e hc hp =>
    rw [code, publish, if_neg (by omega)] at hprog
    cases hprog
    dsimp only
    rw [hs.next]
    refine ⟨⟨_, h.settle (h.books.take t) (fun u hu => update_of_ne hu _ _)
      (fun _ _ _ _ hin => ⟨hin, rfl⟩) (fun _ => ?_) (fun a ha => by cases ha) fun m x => ?_⟩,
      .of_same h.books.sound rfl rfl⟩
    · rw [update_self]
      exact .waits hc hp
    · exact (or_iff_left (by rintro ⟨-, ha⟩; cases ha)).symm
  | @waits n e hc hp =>
    cases hprog
    have hbooks := h.books.enter hapart
    refine ⟨⟨num, h.settle hbooks (fun _ _ => rfl) (fun u m hne hm hin => ⟨.tail _ hin, ?_⟩)
      (fun _ => ?_) (fun a ha => by cases ha) fun m x => ?_⟩,
      .of_store hbooks.sound (fun i hi => Ring.put_slot_ne hi _ _) (by simp) rfl (.head _)⟩
    · refine Ring.put_slot_ne (fun hslot => hne ?_) _ _
      cases hapart m (.tail _ hin) n (.head _) hslot
      exact h.books.own u t n hm hnum
    · rw [hnum]
      have hnone : fill e = [] ++ fill e := rfl
      exact .inside hc hp (.head _) hnone (update_self _ _ _)
        (Ring.put_slot_self _ _ _ _)
    · exact (or_iff_left (by rintro ⟨-, ha⟩; cases ha)).symm
  | @inside n e made left old hc hp hin hfill hold hslot =>
    have hzero : P.shared.slot (slotOf n) .seq = 0 := by
      rw [hslot, Cells.apply_of_forall_ne (fun w hw => fill_ne_seq (e := e) ?_), hold]
      rw [hfill]
      exact mem_append_left _ hw
    cases left with
    | nil =>
      cases hprog
      rw [append_nil] at hfill
      have hevent : readEvent.eval (P.shared.slot (slotOf n)) = e := by
        rw [hslot, ← hfill, readEvent_fill hc hp]
      have hbooks := h.books.commit hnum hevent
      refine ⟨⟨_, h.settle hbooks (fun u hu => update_of_ne hu _ _)
        (fun u m hne hm hmin => ?_) (fun ha => absurd rfl (ha _))
        (fun _ _ => update_self _ _ _) fun m x => ?_⟩,
        ⟨hbooks.sound, fun x hx => .tail _ hx, fun i x hi hx => Ring.put_slot_ne ?_ _ _⟩,
        fun i hi => ⟨n, ?_, .inl hin⟩, fun x hx hnot => ?_⟩
      · obtain ⟨hmn, hsn⟩ := h.slot_ne hnum hin hne hm hmin
        exact ⟨mem_filter.2 ⟨hmin, by simpa using hmn⟩, Ring.put_slot_ne hsn _ _⟩
      · constructor
        · intro hx
          rcases mem_cons.1 hx with heq | hx
          · cases heq
            exact .inr ⟨rfl, rfl⟩
          · exact .inl hx
        · rintro (hx | ⟨hcall, hret⟩)
          · exact .tail _ hx
          · cases hcall
            cases hret
            exact .head _
      · rintro rfl
        rw [Ring.put_slot_self, update_self] at hx
        exact (h.books.pending t n hnum).2.2 x hx
      · exact Classical.not_not.1 fun hne => hi (Ring.put_slot_ne (Ne.symm hne) _ _)
      · rcases mem_cons.1 hx with rfl | hx
        · refine ⟨by simp, ?_⟩
          dsimp only
          rw [Ring.put_slot_self, readEvent_eval_update, hevent]
        · exact absurd hx hnot
    | cons w left =>
      cases hprog
      have hw : w.1 ≠ .seq := fill_ne_seq (e := e) (by simp [hfill])
      have hbooks := h.books.store hw hzero
      refine ⟨⟨num, h.settle hbooks (fun _ _ => rfl) (fun u m hne hm hmin => ⟨hmin, ?_⟩)
        (fun _ => ?_) (fun a ha => by cases left <;> cases ha) fun m x => ?_⟩,
        .of_store hbooks.sound (fun i hi => Ring.put_slot_ne hi _ _) ?_ rfl hin⟩
      · exact Ring.put_slot_ne (h.slot_ne hnum hin hne hm hmin).2 _ _
      · rw [hnum]
        have hmade : fill e = (made ++ [w]) ++ left := by simp [hfill]
        refine .inside hc hp hin hmade hold ?_
        rw [Ring.put_slot_self, hslot, Cells.apply_append]
        rfl
      · exact (or_iff_left (by rintro ⟨-, ha⟩; cases left <;> cases ha)).symm
      · exact (congrFun (Ring.put_slot_self _ _ _ _) _).trans
          ((update_of_ne hw.symm _ _).trans hzero)

/-- **One event** of a run in which no two publishes are inside one slot. -/
theorem RingInv.exec (h : RingInv num P) (e : RingEvent) (hs : P.shared.Unspent)
    (hapart : Apart (ringExec P e).shared) :
    (∃ num', RingInv num' (ringExec P e)) ∧ RingStep P.shared (ringExec P e).shared := by
  have hsame : (∃ num', RingInv num' P) ∧ RingStep P.shared P.shared :=
    ⟨⟨num, h⟩, .of_same h.books.sound rfl rfl⟩
  cases e with
  | env x => exact x.elim
  | call t c =>
    rw [ringExec, Pool.exec]
    split
    · exact hsame
    · rename_i hidle
      rw [Pool.settle_shared]
      exact ⟨⟨num, h.call hidle⟩, .of_same h.books.sound rfl rfl⟩
  | step t =>
    cases hthread : P.thread t with
    | none =>
      rw [ringExec, Pool.exec, hthread]
      exact hsame
    | some x =>
      obtain ⟨c, p⟩ := x
      cases p with
      | ret a =>
        rw [ringExec, Pool.exec, hthread]
        exact hsame
      | act u k =>
        have hexec : ringExec P (.step t) = P.settle t c (u P.shared) (k P.shared) := by
          rw [ringExec, Pool.exec, hthread]
        rw [hexec, Pool.settle_shared] at hapart ⊢
        exact h.act hthread hs hapart

end

/-! ## Reading -/

section
variable {r : Ring}

/-- **One slot**: the event that is taken was committed with its number. -/
theorem readSlot_valid {n : Nat} (hn : n ≠ 0) :
    (readSlot n).Valid RingRely Eq (fun o r' => ∀ e, o = some e → (n, e) ∈ r'.log) r := by
  refine valid_read (fun _ => rfl) fun r hr => ?_
  split
  · intro e he
    cases he
  rename_i hmark
  rw [not_not] at hmark
  have hlog : (n, readEvent.eval (r.slot (slotOf n))) ∈ r.log := by
    have h := hr.sound (slotOf n) (by rwa [hmark])
    rwa [hmark] at h
  have hback : ∀ r₁ r₂, RingRely r₁ r₂ → RingRely r r₁ → r₂.slot (slotOf n) .seq = n →
      r₁.slot (slotOf n) .seq = n := by
    intro r₁ r₂ h₂ h₁ hm
    rw [← h₂.still (slotOf n) _ (by rwa [hm]) (by rw [hm]; exact h₁.log _ hlog), hm]
  refine Valid.bind ((Reads.valid (d := r.slot (slotOf n)) (P := RingRely r)
    (C := fun r' => r'.slot (slotOf n) .seq = n) (fun _ => rfl) (fun _ _ h₂ h₁ => h₁.trans h₂) hback
    (fun r' h₁ hm => ?_) readEvent (.refl hr.sound)).post fun e r₁ he => ?_)
  · exact h₁.still (slotOf n) _ (by rwa [hm]) (by rwa [hm])
  · refine valid_read (fun _ => rfl) fun r₂ h₂ => ?_
    intro x hx
    split at hx
    · rename_i hm
      cases hx
      rw [he.2 (hback r₁ r₂ h₂ he.1 hm)]
      exact h₂.log _ (he.1.log _ hlog)
    · cases hx

theorem scan_valid {ns : List Nat} (hns : ∀ n ∈ ns, n ≠ 0) :
    (scan ns).Valid RingRely Eq (fun out r' => ∀ x ∈ out, x ∈ r'.log) r := by
  induction ns generalizing r with
  | nil =>
    intro x hx
    cases hx
  | cons n ns ih =>
    refine Valid.bind ((readSlot_valid (hns n (.head _))).post fun o r₁ ho => ?_)
    have hrest := (ih (r := r₁) fun m hm => hns m (.tail _ hm)).frame
      (F := fun r' => ∀ e, o = some e → (n, e) ∈ r'.log)
      (fun _ _ hrely h e he => hrely.log _ (h e he)) (fun _ _ heq h => heq ▸ h) ho
    refine Valid.map _ (hrest.post fun out r₂ h => ?_)
    cases o with
    | none => exact h.1
    | some e =>
      intro x hx
      rcases mem_cons.1 hx with rfl | hx
      exacts [h.2 e rfl, h.1 x hx]

theorem ne_zero_of_mem_window {last w n : Nat} (h : n ∈ window last w) : n ≠ 0 := by
  rw [window, mem_range'_1] at h
  omega

/-- What a call returns: the events of a poll were committed. -/
def Committed (res : Res) (r : Ring) : Prop :=
  ∀ events last, res = .polled events last → ∀ x ∈ events, x ∈ r.log

theorem code_valid (c : Call) : (code c).Valid RingRely (fun _ _ => True) Committed r := by
  cases c with
  | publish e =>
    have hany : (publish e).Valid RingRely (fun _ _ => True) (fun _ _ => True) r :=
      Guar.valid ((publish_guar e).mono fun _ _ _ => trivial) fun _ _ => trivial
    refine Valid.map _ (hany.post fun o r' _ => ?_)
    intro events last h
    cases h
  | currentSeq =>
    refine Valid.map _ (valid_read (fun _ => trivial) fun r' _ => ?_)
    intro events last h
    cases h
  | readFrom last =>
    refine Valid.map _ (valid_read (fun _ => trivial) fun r' _ => ?_)
    split
    · intro events last h
      cases h
      simp
    · have hns : ∀ n ∈ window last r'.writeSeq, n ≠ 0 := fun n hn => ne_zero_of_mem_window hn
      generalize window last r'.writeSeq = ns at hns
      refine Valid.map _ ((scan_valid hns).weaken (fun _ _ => id) (fun _ _ _ => trivial)
        fun out r'' h => ?_)
      intro events last heq
      cases heq
      exact h

/-! ## Runs -/

/-- What a run keeps: the ring is in order, the calls in flight will return events that were
committed, and those that have returned did. -/
structure IntactInv (P : RingPool) : Prop where
  ring : ∃ num, RingInv num P
  valid : P.Valid (fun _ => RingRely) (fun _ _ _ => True) fun _ => Committed
  done : ∀ x ∈ P.done, Committed x.res P.shared

theorem intactInv_start : IntactInv (Pool.start .zeroed) :=
  ⟨⟨_, ringInv_start⟩, Pool.valid_start _, fun x hx => by cases hx⟩

/-- **One event.** -/
theorem IntactInv.exec {P : RingPool} (h : IntactInv P) (e : RingEvent) (hs : P.shared.Unspent)
    (hapart : Apart (ringExec P e).shared) : IntactInv (ringExec P e) := by
  obtain ⟨num, hring⟩ := h.ring
  obtain ⟨hring', hstep⟩ := hring.exec e hs hapart
  have hrely := hstep.rely
  have hrefl : RingRely P.shared P.shared := .refl hring.books.sound
  refine ⟨hring', ?_, ?_⟩
  · exact h.valid.exec (fun _ _ _ _ => hrefl) (fun _ => trivial) e (fun _ c _ => code_valid c)
      (fun _ _ _ _ => .trans) fun _ _ _ _ _ => hrely
  · refine h.valid.forall_done (D := fun _ res => Committed res (ringExec P e).shared)
      (fun _ _ _ _ => hrefl) (fun _ => trivial) e (fun _ c _ => code_valid c) (fun _ _ h => h) ?_
    exact fun x hx events last hres y hy => hrely.log y (h.done x hx events last hres y hy)

/-- No two publishes are inside one slot at any time of the run. -/
def KeptApart (es : List RingEvent) : Prop :=
  Run.Along ringExec (fun P e => Apart (ringExec P e).shared) (Pool.start .zeroed) es

/-- The counter is not at its last number before any event of the run. -/
def Unspent (es : List RingEvent) : Prop :=
  Run.Along ringExec (fun P _ => P.shared.Unspent) (Pool.start .zeroed) es

/-- **A run** in which no two publishes are inside one slot. -/
theorem intactInv_runs {es : List RingEvent} (h : KeptApart es) (hs : Unspent es) :
    IntactInv (ringAfter es) :=
  Along.inv (fun _ e hC hinv => hinv.exec e hC.2 hC.1) (h.and hs) intactInv_start

/-- Every event that a poll of the run delivered is what a publish of the run was called with. -/
def Intact (es : List RingEvent) : Prop :=
  ∀ t last events w, ⟨t, .readFrom last, .polled events w⟩ ∈ (ringAfter es).done →
    ∀ x ∈ events, ∃ t', .call t' (.publish x.2) ∈ es

/-- **Integrity**: what is delivered was published, by the publish of its number, if no two
publishes are ever inside one slot and the numbers do not come round. -/
theorem delivered_published {es : List RingEvent} (h : KeptApart es) (hunspent : Unspent es) :
    Intact es ∧ ∀ t last events w, ⟨t, .readFrom last, .polled events w⟩ ∈ (ringAfter es).done →
      ∀ x ∈ events, Returned (ringAfter es) x.1 x.2 := by
  have hinv := intactInv_runs h hunspent
  obtain ⟨num, hring⟩ := hinv.ring
  have hreturned : ∀ t last events w,
      ⟨t, .readFrom last, .polled events w⟩ ∈ (ringAfter es).done →
        ∀ x ∈ events, Returned (ringAfter es) x.1 x.2 := fun t last events w hpoll x hx =>
    (hring.returned x.1 x.2).1 (hinv.done _ hpoll events w rfl x hx)
  refine ⟨fun t last events w hpoll x hx => ?_, hreturned⟩
  obtain ⟨t', ht'⟩ := hreturned t last events w hpoll x hx
  exact ⟨t', Pool.mem_of_done ht'⟩

end

/-! ## Two publishes in one slot -/

/-- An event on a channel of one byte, with one byte of payload. -/
def short (chan payload : UInt8) : Delivered := ([chan], [payload])

/-- Two callers in turn, `n` actions each. -/
def turns (t t' n : Nat) : List RingEvent := (List.replicate n [.step t, .step t']).flatten

/-- A tailer starts, and two callers publish at once: both have their numbers before either of them
has written anything. -/
def crossed : List RingEvent :=
  [.call 0 .currentSeq, .step 0, .call 1 (.publish (short 97 120)), .step 1,
    .call 2 (.publish (short 98 121)), .step 2] ++ turns 1 2 6

/-- A third event is published while the tailer polls. -/
def meanwhile : List RingEvent := .call 3 (.publish (short 99 122)) :: turns 0 3 13

theorem keptApart_crossed : KeptApart (crossed ++ .call 0 (.readFrom 0) :: meanwhile) := by
  rw [KeptApart]
  decide +kernel

theorem unspent_crossed : Unspent (crossed ++ .call 0 (.readFrom 0) :: meanwhile) := by
  rw [Unspent]
  decide +kernel

/-- The tailer is delivered both events, each as it was published. -/
theorem delivered_published_crossed :
    ⟨0, .readFrom 0, .polled [(1, short 97 120), (2, short 98 121)] 2⟩ ∈
        (ringAfter (crossed ++ .call 0 (.readFrom 0) :: meanwhile)).done ∧
      Intact (crossed ++ .call 0 (.readFrom 0) :: meanwhile) :=
  ⟨by decide +kernel, (delivered_published keptApart_crossed unspent_crossed).1⟩

/-- The callers `t`, …, `t + k - 1` take a number each, and sleep. -/
def takes (e : Delivered) (t k : Nat) : List RingEvent :=
  (List.range' t k).flatMap fun t => [.call t (.publish e), .step t]

theorem runs_takes {e : Delivered} (hc : e.1.length ≤ CHAN_MAX) (hp : e.2.length ≤ PAYLOAD_MAX)
    (k : Nat) {t : Nat} {P : RingPool} (hidle : ∀ u, t ≤ u → P.thread u = none)
    (hk : P.shared.writeSeq + k < U64) :
    (Run.runs ringExec P (takes e t k)).shared =
        { P.shared with writeSeq := P.shared.writeSeq + k } ∧
      (∀ u, u < t ∨ t + k ≤ u → (Run.runs ringExec P (takes e t k)).thread u = P.thread u) ∧
      (Run.runs ringExec P (takes e t k)).done = P.done := by
  induction k generalizing t P with
  | zero => exact ⟨rfl, fun _ _ => rfl, rfl⟩
  | succ k ih =>
    have htakes : takes e t (k + 1) = [.call t (.publish e), .step t] ++ takes e (t + 1) k := by
      rw [takes, range'_succ, flatMap_cons]
      rfl
    have hnext : u64Add P.shared.writeSeq 1 = P.shared.writeSeq + 1 :=
      Ring.Unspent.next (show P.shared.writeSeq + 1 < U64 by omega)
    have htwo : runs ringExec P [.call t (.publish e), .step t] =
        P.settle t (.publish e) { P.shared with writeSeq := P.shared.writeSeq + 1 }
          ((entering (P.shared.writeSeq + 1) e).map .published) := by
      rw [runs_cons, runs_cons, runs_nil, ringExec, Pool.exec, hidle t (Nat.le_refl t)]
      have hcode : code (.publish e) = .atom fun r => ({ r with writeSeq := u64Add r.writeSeq 1 },
          (entering (u64Add r.writeSeq 1) e).map .published) := by
        rw [code, publish, if_neg (by omega)]
        rfl
      dsimp only
      rw [hcode, Pool.exec, Pool.settle_thread_of_ne_ret (by simp [Prog.atom])]
      rw [← hnext]
      exact Pool.settle_settle ..
    have hidle' : ∀ u, t + 1 ≤ u → (P.settle t (.publish e)
        { P.shared with writeSeq := P.shared.writeSeq + 1 }
        ((entering (P.shared.writeSeq + 1) e).map .published)).thread u = none := fun u hu => by
      rw [Pool.settle_thread_ne (by omega)]
      exact hidle u (by omega)
    obtain ⟨hs, ht, hd⟩ := ih hidle' (by rw [Pool.settle_shared]; dsimp only; omega)
    rw [htakes, runs_append, htwo]
    refine ⟨?_, fun u hu => ?_, hd⟩
    · rw [hs, Pool.settle_shared]
      simp only [Nat.add_assoc, Nat.add_comm 1]
    · rw [ht u (by omega), Pool.settle_thread_ne (by omega)]

/-- The ring with the first publish inside its slot and 1023 more numbers taken. -/
def crowded : Ring :=
  { writeSeq := 1024, slot := update (fun _ _ => 0) 0 (update (fun _ => 0) .seq 0)
    inside := [1], log := [] }

/-- The first publish, with its slot marked. -/
def sleeper : Prog Ring Res := (storing 1 (short 97 120) (fill (short 97 120))).map .published

/-- The ring after the publish that has the slot next. -/
def overtaken : Ring := ((code (.publish (short 98 121))).run crowded).1

/-- The first publish has written its channel, over the event that is committed there. -/
def blended : Ring := (sleeper.steps 3 overtaken).1

/-- The calls of the run, and the actions of their callers. -/
def Crowd (e : RingEvent) : Prop :=
  (∃ t, e = .call t (.publish (short 97 120))) ∨ (∃ t, e = .call t (.publish (short 98 121))) ∨
    (∃ t, e = .call t (.readFrom 1024)) ∨ ∃ t, e = .step t

theorem crowd_replicate {m t : Nat} : ∀ e ∈ List.replicate m (.step t : RingEvent), Crowd e :=
  fun _ he => .inr (.inr (.inr ⟨t, eq_of_mem_replicate he⟩))

theorem runs_crowded : ∃ es : List RingEvent, (∀ e ∈ es, Crowd e) ∧
    (ringAfter es).shared = crowded ∧
    (ringAfter es).thread 0 = some (.publish (short 97 120), sleeper) ∧
    ∀ t, 1024 ≤ t → (ringAfter es).thread t = none := by
  have htwo : (code (.publish (short 97 120))).Reaches (fun _ => True) Ring.zeroed sleeper
      { crowded with writeSeq := 1 } := reaches_steps 2 _ _
  obtain ⟨m, hm, -⟩ := Pool.runs_call (P := Pool.start Ring.zeroed) (t := 0)
    (fun e : Empty => e.elim) rfl trivial htwo
  have hidle : ∀ u, 1 ≤ u → (Pool.settle (Pool.start Ring.zeroed) 0 (Call.publish (short 97 120))
      { crowded with writeSeq := 1 } sleeper).thread u = none := fun u hu => by
    rw [Pool.settle_thread_ne (by omega)]
    rfl
  obtain ⟨hs, ht, -⟩ :=
    runs_takes (e := short 98 121) (by decide) (by decide) 1023 hidle (by decide)
  refine ⟨(.call 0 (.publish (short 97 120)) :: replicate m (.step 0)) ++
    takes (short 98 121) 1 1023, ?_, ?_⟩
  · intro e he
    rcases mem_append.1 he with he | he
    · rcases mem_cons.1 he with rfl | he
      exacts [.inl ⟨0, rfl⟩, crowd_replicate e he]
    · obtain ⟨t, -, he⟩ := mem_flatMap.1 he
      simp only [mem_cons, not_mem_nil, or_false] at he
      rcases he with rfl | rfl
      exacts [.inr (.inl ⟨t, rfl⟩), .inr (.inr (.inr ⟨t, rfl⟩))]
  · rw [ringAfter, runs_append]
    rw [← ringExec] at hm
    rw [hm]
    refine ⟨?_, ?_, fun t h => ?_⟩
    · rw [hs, Pool.settle_shared]
      simp [crowded]
    · rw [ht 0 (.inl Nat.one_pos)]
      rfl
    · rw [ht t (.inr (by omega)), hidle t (by omega)]

theorem runs_blended : ∃ es : List RingEvent, (∀ e ∈ es, Crowd e) ∧
    (ringAfter es).shared = blended ∧ (ringAfter es).thread 1025 = none := by
  obtain ⟨es, hcrowd, hs, h₀, hidle⟩ := runs_crowded
  obtain ⟨m₁, hm₁⟩ := Pool.runs_whole code (fun e : Empty => e.elim) (.publish (short 98 121))
    (hidle 1024 (Nat.le_refl _))
  have hthread : (runs ringExec (ringAfter es)
      (.call 1024 (.publish (short 98 121)) :: replicate m₁ (.step 1024))).thread 0 =
        some (.publish (short 97 120), sleeper) := by
    rw [ringExec, hm₁, h₀]
  have hthree : sleeper.Reaches (fun _ => True) (runs ringExec (ringAfter es)
      (.call 1024 (.publish (short 98 121)) :: replicate m₁ (.step 1024))).shared
      (sleeper.steps 3 overtaken).2 blended := by
    rw [ringExec, hm₁, hs]
    exact reaches_steps 3 _ _
  obtain ⟨m₂, hm₂, -⟩ := Pool.runs_step code (fun e : Empty => e.elim) hthread
    (ne_ret_of_result? rfl) hthree
  refine ⟨es ++ ((.call 1024 (.publish (short 98 121)) :: replicate m₁ (.step 1024)) ++
    replicate m₂ (.step 0)), ?_, ?_⟩
  · intro e he
    rcases mem_append.1 he with he | he
    · exact hcrowd e he
    rcases mem_append.1 he with he | he
    · rcases mem_cons.1 he with rfl | he
      exacts [.inr (.inl ⟨1024, rfl⟩), crowd_replicate e he]
    · exact crowd_replicate e he
  · have hrun : ringAfter (es ++ ((.call 1024 (.publish (short 98 121)) ::
        replicate m₁ (.step 1024)) ++ replicate m₂ (.step 0))) = _ :=
      (runs_append _ _ _).trans ((runs_append _ _ _).trans hm₂)
    rw [hrun, Pool.settle_shared, Pool.settle_thread_ne (by decide), ringExec, hm₁]
    exact ⟨rfl, hidle 1025 (by decide)⟩

/-- A poll delivers the channel of one publish with the payload of another. -/
theorem mixed_delivered : ¬ ∀ es, Intact es := by
  intro h
  obtain ⟨es, hcrowd, hs, hidle⟩ := runs_blended
  obtain ⟨m, hm⟩ := Pool.runs_whole code (fun e : Empty => e.elim) (.readFrom 1024) hidle
  have hpoll : ((code (.readFrom 1024)).run blended).2 =
      .polled [(1025, short 97 121)] 1025 := by decide +kernel
  rw [hs, hpoll] at hm
  have hdone : ⟨1025, .readFrom 1024, .polled [(1025, short 97 121)] 1025⟩ ∈
      (ringAfter (es ++ .call 1025 (.readFrom 1024) :: replicate m (.step 1025))).done := by
    rw [ringAfter, runs_append, ringExec]
    change _ ∈ (runs (Pool.exec code _) (ringAfter es) _).done
    rw [hm]
    exact .head _
  obtain ⟨t, ht⟩ := h _ _ _ _ _ hdone _ (.head _)
  have hcall : Crowd (.call t (.publish (short 97 121))) := by
    rcases mem_append.1 ht with ht | ht
    · exact hcrowd _ ht
    · rcases mem_cons.1 ht with ht | ht
      exacts [.inr (.inr (.inl ⟨1025, ht⟩)), crowd_replicate _ ht]
  rcases hcall with ⟨u, hu⟩ | ⟨u, hu⟩ | ⟨u, hu⟩ | ⟨u, hu⟩
  · simp [short] at hu
  · simp [short] at hu
  · simp at hu
  · simp at hu

end Askr.Broadcast
