import Askr.Broadcast.Intact

/-!
# Delivery

The tailer of a worker starts at the newest number and then polls with the cursor it got back. What
it is delivered is in the order of the numbers, each at most once, whatever the publishers do.

An event is delivered by the first poll after its publish has returned, if no earlier poll went past
its number, and if its slot is left alone until the poll is over (`delivered_once`). A publish takes
its number before it writes its event, and a poll that comes in between moves the cursor past it:
that event is never delivered (`event_lost`).
-/

namespace Askr.Broadcast

open Conc Conc.Prog List Run Pool

def Res.events : Res → List (Nat × Delivered)
  | .polled events _ => events
  | _ => []

/-- The cursor that a tailer takes from a result. -/
def Res.cursor? : Res → Option Nat
  | .published _ => none
  | .current seq => some seq
  | .polled _ last => some last

/-- What the caller `t` was delivered, oldest first. -/
def deliveredTo (t : Nat) (P : RingPool) : List (Nat × Delivered) :=
  (P.returns t).reverse.flatMap (·.res.events)

/-- The cursor of the caller `t`. -/
def cursor (t : Nat) (P : RingPool) : Option Nat := (P.returns t).findSome? (·.res.cursor?)

/-- The next call of a tailer with the given cursor. -/
def nextCall : Option Nat → Call
  | none => .currentSeq
  | some last => .readFrom last

/-- The caller `t` calls what a tailer calls next. -/
def Tails (t : Nat) (P : RingPool) : RingEvent → Prop
  | .call u c => u = t → (P.thread t).isNone → c = nextCall (cursor t P)
  | _ => True

instance (t : Nat) (P : RingPool) : DecidablePred (Tails t P) := fun
  | .call u c => inferInstanceAs (Decidable (u = t → (P.thread t).isNone → c = _))
  | .step _ => .isTrue trivial
  | .env _ => .isTrue trivial

/-! ## At most once, and in order -/

/-- What a tailer with the cursor gets back in the state `r`. -/
def Answers : Option Nat → Res → Ring → Prop
  | none, .current seq, r => seq ≤ r.writeSeq
  | some last, .polled events w, r => last ≤ w ∧ w ≤ r.writeSeq ∧
      (events.map Prod.fst).Pairwise (· < ·) ∧ ∀ x ∈ events, last < x.1 ∧ x.1 ≤ w
  | _, _, _ => False

section
variable {R : Ring → Ring → Prop} {r : Ring} {t : Nat} {P : RingPool}

theorem scan_sublist (ns : List Nat) :
    (scan ns).Valid R Eq (fun out _ => (out.map Prod.fst).Sublist ns) r := by
  induction ns generalizing r with
  | nil => exact .slnil
  | cons n ns ih =>
    refine Valid.bind (((readSlot_looks n).valid fun _ _ => trivial).post
      (Q := fun _ _ => True) fun o r' _ => ?_)
    refine Valid.map _ (ih.post fun out r'' h => ?_)
    cases o with
    | none => exact h.cons n
    | some e => exact h.cons_cons n

theorem pairwise_window (last w : Nat) : (window last w).Pairwise (· < ·) :=
  pairwise_lt_range'

theorem mem_window {last w n : Nat} : n ∈ window last w ↔
    last < n ∧ n ≤ w ∧ w < n + RING_SLOTS := by
  have hpos : 0 < RING_SLOTS := by decide
  rw [window, mem_range'_1]
  omega

theorem nextCall_valid {o : Option Nat} (ho : ∀ l, o = some l → l ≤ r.writeSeq) :
    (code (nextCall o)).Valid Later Eq (Answers o) r := by
  cases o with
  | none => exact Valid.map _ (valid_read (fun _ => rfl) fun r' _ => Nat.le_refl _)
  | some last =>
    refine Valid.map _ (valid_read (fun _ => rfl) fun r' hr' => ?_)
    have hlast : last ≤ r'.writeSeq := Nat.le_trans (ho last rfl) hr'
    split
    · exact ⟨hlast, Nat.le_refl _, by simp, by simp⟩
    · have hpair := pairwise_window last r'.writeSeq
      have hmem : ∀ n ∈ window last r'.writeSeq, last < n ∧ n ≤ r'.writeSeq :=
        fun n hn => ⟨(mem_window.1 hn).1, (mem_window.1 hn).2.1⟩
      generalize window last r'.writeSeq = ns at hpair hmem
      have hscan := (scan_sublist (R := Later) (r := r') ns).frame
        (F := Later r') (fun _ _ h h' => h'.trans h) (fun r₁ r₂ (h : r₁ = r₂) h' => h ▸ h')
        (.refl r')
      refine Valid.map _ (hscan.post fun out r'' h => ?_)
      exact ⟨hlast, h.2, hpair.sublist h.1,
        fun x hx => hmem x.1 (h.1.subset (mem_map_of_mem hx))⟩

/-- A tailer between two events. -/
structure Tailing (t : Nat) (P : RingPool) : Prop where
  ordered : ((deliveredTo t P).map Prod.fst).Pairwise (· < ·)
  behind : ∀ x ∈ deliveredTo t P, ∃ l, cursor t P = some l ∧ x.1 ≤ l
  cursor_le : ∀ l, cursor t P = some l → l ≤ P.shared.writeSeq
  flight : P.thread t = none ∨
    P.Serves Later Eq (Answers (cursor t P)) t (nextCall (cursor t P))

theorem tailing_start (t : Nat) : Tailing t (start .zeroed) where
  ordered := .nil
  behind x hx := by cases hx
  cursor_le l h := by cases h
  flight := .inl rfl

theorem later_exec (h : P.Guarded fun _ => Forth) (hs : P.shared.Unspent) (e : RingEvent) :
    Later P.shared (ringExec P e).shared := by
  rcases exec_cases code (fun x : Empty => x.elim) P e with he | ⟨t, c, -, he⟩ |
    ⟨t, c, p, -, ht, he⟩ | ⟨x, -⟩
  · rw [ringExec, he]
    exact .refl _
  · rw [ringExec, he, settle_shared]
    exact .refl _
  · rw [ringExec, he, settle_shared]
    exact ((h t c p ht).next Forth.refl P.shared).1 hs
  · exact x.elim

theorem Tailing.of_returns {P' : RingPool} (h : Tailing t P) (hreturns : P'.returns t = P.returns t)
    (hlater : Later P.shared P'.shared)
    (hflight : P'.thread t = none ∨
      P'.Serves Later Eq (Answers (cursor t P)) t (nextCall (cursor t P))) : Tailing t P' := by
  have hdel : deliveredTo t P' = deliveredTo t P := by rw [deliveredTo, hreturns, deliveredTo]
  have hcur : cursor t P' = cursor t P := by rw [cursor, hreturns, cursor]
  refine ⟨hdel ▸ h.ordered, ?_, ?_, ?_⟩
  · rw [hdel, hcur]
    exact h.behind
  · rw [hcur]
    exact fun l hl => Nat.le_trans (h.cursor_le l hl) hlater
  · rwa [hcur]

theorem Tailing.of_answer (h : Tailing t P) {s : Ring} {a : Res} (ha : Answers (cursor t P) a s) :
    Tailing t (P.settle t (nextCall (cursor t P)) s (.ret a)) := by
  have hdel : deliveredTo t (P.settle t (nextCall (cursor t P)) s (.ret a)) =
      deliveredTo t P ++ a.events := by
    rw [deliveredTo, returns_settle_ret, reverse_cons, flatMap_append]
    simp [deliveredTo]
  have hcur : ∀ l, a.cursor? = some l →
      cursor t (P.settle t (nextCall (cursor t P)) s (.ret a)) = some l := by
    intro l hl
    rw [cursor, returns_settle_ret, findSome?_cons, hl]
  have hidle : (P.settle t (nextCall (cursor t P)) s (.ret a)).thread t = none := by
    simp [settle]
  generalize hP' : P.settle t (nextCall (cursor t P)) s (.ret a) = P' at *
  have hs : P'.shared = s := by rw [← hP', settle_shared]
  generalize ho : cursor t P = o at ha
  have hbehind := h.behind
  rw [ho] at hbehind
  cases o with
  | none =>
    cases a with
    | current seq =>
      refine ⟨?_, ?_, ?_, .inl hidle⟩
      · rw [hdel]
        simpa [Res.events] using h.ordered
      · intro x hx
        rw [hdel] at hx
        obtain ⟨l, hl, -⟩ := hbehind x (by simpa [Res.events] using hx)
        cases hl
      · intro l hl
        rw [hcur seq rfl] at hl
        cases hl
        rw [hs]
        exact ha
    | published seq => exact ha.elim
    | polled events w => exact ha.elim
  | some last =>
    cases a with
    | polled events w =>
      obtain ⟨hlast, hw, hpair, hmem⟩ := ha
      refine ⟨?_, ?_, ?_, .inl hidle⟩
      · rw [hdel, map_append]
        refine pairwise_append.2 ⟨h.ordered, hpair, ?_⟩
        intro m hm n hn
        obtain ⟨x, hx, rfl⟩ := mem_map.1 hm
        obtain ⟨y, hy, rfl⟩ := mem_map.1 hn
        obtain ⟨l, hl, hle⟩ := hbehind x hx
        cases hl
        exact Nat.lt_of_le_of_lt hle (hmem y hy).1
      · intro x hx
        refine ⟨w, hcur w rfl, ?_⟩
        rw [hdel] at hx
        rcases mem_append.1 hx with hx | hx
        · obtain ⟨l, hl, hle⟩ := hbehind x hx
          cases hl
          exact Nat.le_trans hle hlast
        · exact (hmem x hx).2
      · intro l hl
        rw [hcur w rfl] at hl
        cases hl
        rw [hs]
        exact hw
    | published seq => exact ha.elim
    | current seq => exact ha.elim

/-- **One event** of a run with a tailer. -/
theorem Tailing.exec (h : Tailing t P) (hg : P.Guarded fun _ => Forth) (e : RingEvent)
    (hs : P.shared.Unspent) (htails : Tails t P e) : Tailing t (ringExec P e) := by
  have hlater := later_exec hg hs e
  rcases h.flight with hidle | hserves
  · by_cases hcall : ∃ c, e = .call t c
    · obtain ⟨c, rfl⟩ := hcall
      have hc : c = nextCall (cursor t P) := htails rfl (by rw [hidle]; rfl)
      subst hc
      have hstart : (ringExec P (.call t (nextCall (cursor t P)))).Serves Later Eq
          (Answers (cursor t P)) t (nextCall (cursor t P)) ∨ _ :=
        serves_call hidle (nextCall_valid h.cursor_le)
      rcases hstart with hs | ⟨a, heq, ha⟩
      · obtain ⟨p, hp, -⟩ := id hs
        exact h.of_returns (returns_exec_of_busy (by rw [← ringExec, hp]; simp)) hlater
          (.inr hs)
      · rw [ringExec, heq]
        exact h.of_answer ha
    · obtain ⟨hidle', hreturns⟩ : (ringExec P e).thread t = none ∧
          (ringExec P e).returns t = P.returns t :=
        exec_of_idle hidle fun c hc => hcall ⟨c, hc⟩
      exact h.of_returns hreturns hlater (.inl hidle')
  · rcases hserves.exec (Later.refl _) (fun _ _ _ => Later.trans) rfl e (fun _ => hlater) with
      hs | ⟨a, s, heq, ha⟩
    · obtain ⟨p, hp, -⟩ := id hs
      exact h.of_returns (returns_exec_of_busy (by rw [hp]; simp)) hlater (.inr hs)
    · rw [ringExec, heq]
      exact h.of_answer ha

/-- The caller `t` is a tailer in the run. -/
def TailedBy (t : Nat) (es : List RingEvent) : Prop :=
  Run.Along ringExec (Tails t) (start .zeroed) es

/-- **A run** with a tailer. -/
theorem tailing_runs {es : List RingEvent} (h : TailedBy t es) (hs : Unspent es) :
    Tailing t (ringAfter es) :=
  (along_guarded (fun _ => Forth.refl) code_guar (h.and hs)).inv (I := Tailing t)
    (fun _ e hC hinv => Tailing.exec hinv hC.2 e hC.1.2 hC.1.1) (tailing_start t)

end

/-! ## The poll that finds an event -/

/-- The newest number is less than a ring ahead of `n`. -/
def Recent (n : Nat) (r : Ring) : Prop := r.writeSeq < n + RING_SLOTS

/-- No publish is inside the slot of `n`. -/
def Undisturbed (n : Nat) (r : Ring) : Prop := ∀ m ∈ r.inside, slotOf m ≠ slotOf n

instance (n : Nat) : DecidablePred (Recent n) := fun r =>
  inferInstanceAs (Decidable (r.writeSeq < _))

instance (n : Nat) : DecidablePred (Undisturbed n) := fun r =>
  inferInstanceAs (Decidable (∀ m ∈ r.inside, _))

section
variable {r : Ring} {t n last : Nat} {e : Delivered} {d : Field → Nat} {P : RingPool}

/-- The ring for a reader that is to find `n`: the slot stands still, and the number is neither new
nor too old. -/
def Ready (n : Nat) (d : Field → Nat) (r : Ring) : Prop :=
  r.slot (slotOf n) = d ∧ n ≤ r.writeSeq ∧ Recent n r

theorem readSlot_finds (hd : d .seq = n) :
    (readSlot n).Valid (fun _ => Ready n d) Eq (fun o _ => o = some (readEvent.eval d)) r := by
  refine valid_read (fun _ => rfl) fun r hr => ?_
  rw [hr.1, if_neg (not_not.2 hd)]
  refine Valid.bind ((Reads.valid_stable (P := Ready n d) (fun _ => rfl) (fun _ _ h _ => h)
    (fun _ h => h.1) readEvent hr).post fun x r₁ hx => ?_)
  refine valid_read (fun _ => rfl) fun r₂ h₂ => ?_
  rw [h₂.1, if_pos hd, hx.2]
  rfl

theorem scan_finds (hd : d .seq = n) {ns : List Nat} (hn : n ∈ ns) :
    (scan ns).Valid (fun _ => Ready n d) Eq (fun out _ => (n, readEvent.eval d) ∈ out) r := by
  induction ns generalizing r with
  | nil => cases hn
  | cons m ns ih =>
    rcases mem_cons.1 hn with rfl | hn
    · refine Valid.bind ((readSlot_finds hd).post fun o r₁ ho => ?_)
      have hany : (scan ns).Valid (fun _ => Ready n d) Eq (fun _ _ => True) r₁ :=
        (scan_looks ns).valid fun _ _ => trivial
      refine Valid.map _ (hany.post fun out r₂ _ => ?_)
      rw [ho]
      exact .head _
    · have hany : (readSlot m).Valid (fun _ => Ready n d) Eq (fun _ _ => True) r :=
        (readSlot_looks m).valid fun _ _ => trivial
      refine Valid.bind (hany.post fun o r₁ _ => ?_)
      refine Valid.map _ ((ih hn).post fun out r₂ h => ?_)
      cases o with
      | none => exact h
      | some x => exact .tail _ h

theorem readFrom_finds (hd : d .seq = n) (hlast : last < n) :
    (code (.readFrom last)).Valid (fun _ => Ready n d) Eq
      (fun a _ => (n, readEvent.eval d) ∈ a.events) r := by
  refine Valid.map _ (valid_read (fun _ => rfl) fun r hr => ?_)
  have hn : n ∈ window last r.writeSeq := mem_window.2 ⟨hlast, hr.2.1, hr.2.2⟩
  have hle := hr.2.1
  rw [if_neg (by omega)]
  generalize window last r.writeSeq = ns at hn
  exact Valid.map _ ((scan_finds hd hn).post fun out r' h => h)

/-! ## The event in its slot -/

/-- The event of `n`, once it is returned, is in its slot and will be found there. -/
structure Kept (n : Nat) (e : Delivered) (P : RingPool) : Prop where
  ring : ∃ num, RingInv num P
  quiet : Returned P n e → Recent n P.shared ∧ Undisturbed n P.shared
  holds : Returned P n e → Holds n e P.shared

theorem kept_start : Kept n e (start .zeroed) where
  ring := ⟨_, ringInv_start⟩
  quiet h := by
    obtain ⟨t, ht⟩ := h
    cases ht
  holds h := by
    obtain ⟨t, ht⟩ := h
    cases ht

/-- The conditions on an event for the event `n` to be found: there are numbers left, no two
publishes are inside one slot, and once `n` has returned it is recent, and nobody else is inside its
slot. -/
def Careful (n : Nat) (e : Delivered) (P : RingPool) (ev : RingEvent) : Prop :=
  P.shared.Unspent ∧ Apart (ringExec P ev).shared ∧
    (Returned (ringExec P ev) n e → Recent n (ringExec P ev).shared ∧
      Undisturbed n (ringExec P ev).shared)

theorem Kept.still (h : Kept n e P) {ev : RingEvent} (hev : Careful n e P ev)
    (hret : Returned P n e) : Returned (ringExec P ev) n e ∧
      (ringExec P ev).shared.slot (slotOf n) = P.shared.slot (slotOf n) := by
  obtain ⟨num, hring⟩ := h.ring
  obtain ⟨⟨num', hring'⟩, hstep⟩ := hring.exec ev hev.1 hev.2.1
  have hret' : Returned (ringExec P ev) n e :=
    (hring'.returned n e).1 (hstep.rely.log _ ((hring.returned n e).2 hret))
  refine ⟨hret', Classical.not_not.1 fun hne => ?_⟩
  obtain ⟨m, hm, hin | hin⟩ := hstep.touch _ hne
  exacts [(h.quiet hret).2 m hin hm, (hev.2.2 hret').2 m hin hm]

/-- A careful event keeps the event of `n` in its slot. -/
theorem Kept.exec (h : Kept n e P) {ev : RingEvent} (hev : Careful n e P ev) :
    Kept n e (ringExec P ev) := by
  obtain ⟨num, hring⟩ := h.ring
  obtain ⟨⟨num', hring'⟩, hstep⟩ := hring.exec ev hev.1 hev.2.1
  refine ⟨⟨num', hring'⟩, hev.2.2, fun hret' => ?_⟩
  by_cases hret : Returned P n e
  · have hslot := (h.still hev hret).2
    rw [Holds, hslot]
    exact h.holds hret
  · exact hstep.fresh (n, e) ((hring'.returned n e).2 hret') fun hlog =>
      hret ((hring.returned n e).1 hlog)

/-- The poll is under way, or has delivered the event. -/
structure Finding (t last n : Nat) (e : Delivered) (d : Field → Nat) (P : RingPool) : Prop where
  kept : Kept n e P
  returned : Returned P n e
  slot : P.shared.slot (slotOf n) = d
  poll : P.Serves (fun _ => Ready n d) Eq (fun a _ => (n, readEvent.eval d) ∈ a.events) t
    (.readFrom last) ∨ (n, readEvent.eval d) ∈ deliveredTo t P

theorem Kept.ready (h : Kept n e P) (hret : Returned P n e) :
    Ready n (P.shared.slot (slotOf n)) P.shared := by
  obtain ⟨num, hring⟩ := h.ring
  exact ⟨rfl, hring.books.numbered _ ((hring.returned n e).2 hret), (h.quiet hret).1⟩

theorem mem_deliveredTo {x : Nat × Delivered} :
    x ∈ deliveredTo t P ↔ ∃ y ∈ P.done, y.tid = t ∧ x ∈ y.res.events := by
  simp [deliveredTo, returns, and_assoc]

theorem mem_deliveredTo_exec {x : Nat × Delivered} (h : x ∈ deliveredTo t P) (ev : RingEvent) :
    x ∈ deliveredTo t (ringExec P ev) := by
  obtain ⟨y, hy, hx⟩ := mem_deliveredTo.1 h
  exact mem_deliveredTo.2 ⟨y, (done_suffix_exec code _ P ev).subset hy, hx⟩

/-- A careful event keeps the poll on its way, or what it delivered. -/
theorem Finding.exec (h : Finding t last n e d P) {ev : RingEvent} (hev : Careful n e P ev) :
    Finding t last n e d (ringExec P ev) := by
  obtain ⟨hret, hslot⟩ := h.kept.still hev h.returned
  have hkept := h.kept.exec hev
  rw [h.slot] at hslot
  refine ⟨hkept, hret, hslot, ?_⟩
  rcases h.poll with hserves | hdel
  · have hready : Ready n d P.shared := h.slot ▸ h.kept.ready h.returned
    have hready' : Ready n d (ringExec P ev).shared := hslot ▸ hkept.ready hret
    rcases hserves.exec hready (fun _ _ _ _ h => h) rfl ev fun _ => hready' with
      hs | ⟨a, s, heq, ha⟩
    · exact .inl hs
    · rw [ringExec, heq]
      exact .inr (mem_deliveredTo.2 ⟨_, .head _, rfl, ha⟩)
  · exact .inr (mem_deliveredTo_exec hdel ev)

theorem Kept.finding (h : Kept n e P) (hret : Returned P n e) (hidle : P.thread t = none)
    (hlast : last < n) (hev : Careful n e P (.call t (.readFrom last))) :
    Finding t last n e (P.shared.slot (slotOf n)) (ringExec P (.call t (.readFrom last))) := by
  obtain ⟨hret', hslot⟩ := h.still hev hret
  refine ⟨h.exec hev, hret', hslot, ?_⟩
  have hstart : (ringExec P (.call t (.readFrom last))).Serves
      (fun _ => Ready n (P.shared.slot (slotOf n))) Eq
      (fun a _ => (n, readEvent.eval (P.shared.slot (slotOf n))) ∈ a.events) t
      (.readFrom last) ∨ _ :=
    serves_call hidle (readFrom_finds (h.holds hret).1 hlast)
  refine hstart.imp_right ?_
  rintro ⟨a, heq, ha⟩
  rw [ringExec, heq]
  exact mem_deliveredTo.2 ⟨_, .head _, rfl, ha⟩

end

/-! ## Delivery -/

/-- From when the publish of `n` has returned, `C` holds of the ring in the run. -/
def Since (n : Nat) (e : Delivered) (C : Ring → Prop) (es : List RingEvent) : Prop :=
  Run.Along ringExec (fun P ev => Returned (ringExec P ev) n e → C (ringExec P ev).shared)
    (start .zeroed) es

/-- The event `n` was delivered to the caller `t`, once, and everything in order. -/
def DeliveredOnce (t n : Nat) (e : Delivered) (es : List RingEvent) : Prop :=
  ((deliveredTo t (ringAfter es)).map Prod.fst).Pairwise (· < ·) ∧
    (n, e) ∈ deliveredTo t (ringAfter es)

/-- A poll of a tailer that starts after the publish `n` has returned, and is over, has the event
behind it: it is delivered, now or before, if it is new to the tailer and not too old. -/
def Delivery : Prop :=
  ∀ (t n start last : Nat) (e : Delivered) (es es' : List RingEvent),
    TailedBy t (es ++ .call t (.readFrom last) :: es') →
    ⟨t, .currentSeq, .current start⟩ ∈ (ringAfter es).done → start < n →
    Returned (ringAfter es) n e → (ringAfter es).thread t = none →
    (ringAfter (es ++ .call t (.readFrom last) :: es')).thread t = none →
    Since n e (Recent n) (es ++ .call t (.readFrom last) :: es') →
    DeliveredOnce t n e (es ++ .call t (.readFrom last) :: es')

/-- **Delivery**: the first poll after the publish has returned delivers the event, if the cursor is
still before it, no publish is inside its slot until the poll is over, and the numbers do not come
round. -/
theorem delivered_once {t n last : Nat} {e : Delivered} {es es' : List RingEvent}
    (htails : TailedBy t (es ++ .call t (.readFrom last) :: es')) (hlast : last < n)
    (hret : Returned (ringAfter es) n e) (hidle : (ringAfter es).thread t = none)
    (hover : (ringAfter (es ++ .call t (.readFrom last) :: es')).thread t = none)
    (hrecent : Since n e (Recent n) (es ++ .call t (.readFrom last) :: es'))
    (hapart : KeptApart (es ++ .call t (.readFrom last) :: es'))
    (hunspent : Unspent (es ++ .call t (.readFrom last) :: es'))
    (halone : Since n e (Undisturbed n) (es ++ .call t (.readFrom last) :: es')) :
    DeliveredOnce t n e (es ++ .call t (.readFrom last) :: es') := by
  have hcareful : Along ringExec (Careful n e) (start .zeroed)
      (es ++ .call t (.readFrom last) :: es') :=
    (hunspent.and (hapart.and (hrecent.and halone))).mono fun P ev h =>
      ⟨h.1, h.2.1, fun hret => ⟨h.2.2.1 hret, h.2.2.2 hret⟩⟩
  obtain ⟨hbefore, hpoll⟩ := along_append.1 hcareful
  have hkept : Kept n e (ringAfter es) :=
    hbefore.inv (fun P ev hev h => h.exec hev) kept_start
  have hfinding : Finding t last n e ((ringAfter es).shared.slot (slotOf n))
      (runs ringExec (ringExec (ringAfter es) (.call t (.readFrom last))) es') :=
    hpoll.2.inv (fun P ev hev h => h.exec hev) (hkept.finding hret hidle hlast hpoll.1)
  have hend : ringAfter (es ++ .call t (.readFrom last) :: es') = runs ringExec
      (ringExec (ringAfter es) (.call t (.readFrom last))) es' := runs_append _ _ _
  rw [← hend] at hfinding
  refine ⟨(tailing_runs htails hunspent).ordered, ?_⟩
  rcases hfinding.poll with ⟨p, hp, -⟩ | hdel
  · rw [hover] at hp
    cases hp
  · rwa [(hkept.holds hret).2] at hdel

/-- The tailer 0 starts, and the publish of 1 takes its number. -/
def numberTaken : List RingEvent :=
  [.call 0 .currentSeq, .step 0, .call 1 (.publish (short 97 120)), .step 1]

/-- The event of a publish that another one came in between of, with a third one under way during
the poll. -/
theorem delivered_once_crossed : DeliveredOnce 0 1 (short 97 120)
      (crossed ++ .call 0 (.readFrom 0) :: meanwhile) := by
  refine delivered_once ?_ Nat.one_pos ⟨1, ?_⟩ (Option.isNone_iff_eq_none.1 ?_)
    (Option.isNone_iff_eq_none.1 ?_) ?_ keptApart_crossed unspent_crossed ?_
  · rw [TailedBy]
    decide +kernel
  · decide +kernel
  · decide +kernel
  · decide +kernel
  · rw [Since]
    decide +kernel
  · rw [Since]
    decide +kernel

/-- A poll between the number of an event and its commit goes past it, and the next one does not
look for it. -/
theorem event_lost : ¬ Delivery := by
  intro h
  have hlost := h 0 1 0 1 (short 97 120) (numberTaken ++ .call 0 (.readFrom 0) ::
    replicate 2 (.step 0) ++ replicate 6 (.step 1)) [.step 0]
    (by rw [TailedBy]; decide +kernel) (by decide +kernel) Nat.one_pos
    ⟨1, by decide +kernel⟩ rfl rfl (by rw [Since]; decide +kernel)
  exact absurd hlost.2 (by decide +kernel)

end Askr.Broadcast
