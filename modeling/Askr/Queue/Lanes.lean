import Askr.Conc.Rely
import Askr.Queue.Pollers

/-!
# Workers that claim lanes

`lane_for`, `mark_polled` and `mark_drained` of any number of workers, access by access. A worker
walks the table from the entry of its hash, claims the first free one by a compare-exchange, writes
the name and then publishes its length.

An entry is never given up, so what a worker has passed belongs to other queues for good, and all it
relies on is that (`LanesKept`). A hash has one lane (`lanes_belong`).
-/

namespace Askr.Queue

open Conc Prog Probe Function List

/-- The lanes in shared memory. `claim` is the queue that an entry was claimed for, which no program
reads. -/
structure LaneTable where
  hash : Nat → Nat
  name : Nat → Bytes
  nameLen : Nat → Nat
  lastPolledMs : Nat → Nat
  lastDrainedMs : Nat → Nat
  claim : Nat → Bytes

def LaneTable.zeroed : LaneTable :=
  { hash := fun _ => 0, name := fun _ => [], nameLen := fun _ => 0, lastPolledMs := fun _ => 0,
    lastDrainedMs := fun _ => 0, claim := fun _ => [] }

/-- The winner of the exchange writes the name, and then its length. -/
def publishName (i : Nat) (name : Bytes) : Prog LaneTable (Option Nat) :=
  .atom fun s => ({ s with name := update s.name i name },
    .atom fun s => ({ s with nameLen := update s.nameLen i name.length }, .ret (some i)))

/-- The loop of `lane_for`. -/
def claimLane (qh : Nat) (queue : Bytes) : List Nat → Prog LaneTable (Option Nat)
  | [] => .ret none
  | i :: rest => .read fun s =>
    if s.hash i = qh then .ret (some i)
    else if s.hash i ≠ 0 then claimLane qh queue rest
    else .atom fun s =>
      if s.hash i = 0 then
        ({ s with hash := update s.hash i qh, claim := update s.claim i queue },
          publishName i (queue.take QUEUE_NAME_MAX))
      else (s, if s.hash i = qh then .ret (some i) else claimLane qh queue rest)

/-- What a worker calls for a queue, with the time that it stores. -/
inductive LaneCall where
  | laneFor (queue : Bytes)
  | markPolled (queue : Bytes) (now : Nat)
  | markDrained (queue : Bytes) (now : Nat)

def LaneCall.queue : LaneCall → Bytes
  | laneFor queue | markPolled queue _ | markDrained queue _ => queue

/-- The store of `mark_polled` and `mark_drained`. -/
def LaneCall.stamp (i : Nat) (s : LaneTable) : LaneCall → LaneTable
  | laneFor _ => s
  | markPolled _ now => { s with lastPolledMs := update s.lastPolledMs i now }
  | markDrained _ now => { s with lastDrainedMs := update s.lastDrainedMs i now }

/-- A call returns the lane that it has found. -/
def laneCode (g : Config) (c : LaneCall) : Prog LaneTable (Option Nat) :=
  (claimLane (g.laneHash c.queue) c.queue (laneProbe (g.laneHash c.queue))).bind fun
    | none => .ret none
    | some i => .atom fun s => (c.stamp i s, .ret (some i))

abbrev lanesExec (g : Config) :=
  Pool.exec (ε := Empty) (laneCode g) fun x _ => x.elim

/-- The workers and the table after a run. -/
def lanesAfter (g : Config) (es : List (Event LaneCall Empty)) :
    Pool LaneTable LaneCall (Option Nat) := Run.runs (lanesExec g) (.start .zeroed) es

/-! ## What holds of the table -/

structure LanesInv (g : Config) (s : LaneTable) : Prop where
  owned : ∀ i, s.hash i ≠ 0 → s.hash i = g.laneHash (s.claim i)
  named : ∀ i, s.nameLen i ≠ 0 → s.hash i ≠ 0 ∧ s.name i = (s.claim i).take QUEUE_NAME_MAX ∧
    s.nameLen i = (s.name i).length
  place : ∀ i, s.hash i ≠ 0 → ∀ j ∈ passed (laneProbe (s.hash i)) i,
    s.hash j ≠ 0 ∧ s.hash j ≠ s.hash i

/-- An entry that is claimed stays so, and its name too. -/
structure LanesKept (s s' : LaneTable) : Prop where
  hash : ∀ i, s.hash i ≠ 0 → s'.hash i = s.hash i
  claim : ∀ i, s.hash i ≠ 0 → s'.claim i = s.claim i
  name : ∀ i, s.hash i ≠ 0 → s.name i = (s.claim i).take QUEUE_NAME_MAX → s'.name i = s.name i

/-- What a call returns with: the lane of its queue, or nothing when all are those of others. -/
def LaneFound (qh : Nat) (o : Option Nat) (s : LaneTable) : Prop :=
  match o with
  | some i => s.hash i = qh
  | none => ∀ i < LANES, s.hash i ≠ 0 ∧ s.hash i ≠ qh

variable {g : Config} {s s' s'' : LaneTable} {i : Nat} {queue : Bytes}

theorem LanesKept.refl (s : LaneTable) : LanesKept s s :=
  ⟨fun _ _ => rfl, fun _ _ => rfl, fun _ _ _ => rfl⟩

theorem LanesKept.trans (h : LanesKept s s') (h' : LanesKept s' s'') : LanesKept s s'' where
  hash i hi := by rw [h'.hash i (h.hash i hi ▸ hi), h.hash i hi]
  claim i hi := by rw [h'.claim i (h.hash i hi ▸ hi), h.claim i hi]
  name i hi hn := by
    have hname := h.name i hi hn
    rw [h'.name i (h.hash i hi ▸ hi) (by rw [hname, h.claim i hi, hn]), hname]

theorem LanesKept.others {qh : Nat} (h : LanesKept s s') (hi : s.hash i ≠ 0 ∧ s.hash i ≠ qh) :
    s'.hash i ≠ 0 ∧ s'.hash i ≠ qh := by rwa [h.hash i hi.1]

theorem LaneFound.kept {qh : Nat} (hqh : qh ≠ 0) {o : Option Nat} (h : LanesKept s s')
    (ho : LaneFound qh o s) : LaneFound qh o s' := by
  cases o with
  | none => exact fun i hi => h.others (ho i hi)
  | some i => exact (h.hash i (ho ▸ hqh)).trans ho

/-- **A free entry is claimed** by a worker that has passed lanes of others. -/
theorem LanesInv.claim (h : LanesInv g s) (hfree : s.hash i = 0)
    (hpre : ∀ j ∈ passed (laneProbe (g.laneHash queue)) i,
      s.hash j ≠ 0 ∧ s.hash j ≠ g.laneHash queue) :
    LanesInv g { s with hash := update s.hash i (g.laneHash queue),
                        claim := update s.claim i queue } ∧
      LanesKept s { s with hash := update s.hash i (g.laneHash queue),
                           claim := update s.claim i queue } := by
  have hne : ∀ k, s.hash k ≠ 0 → k ≠ i := by
    rintro k hk rfl
    exact hk hfree
  refine ⟨⟨fun k hk => ?_, fun k hk => ?_, fun k hk j hj => ?_⟩, fun k hk => ?_, fun k hk => ?_,
    fun k hk _ => rfl⟩
  · by_cases hki : k = i
    · simp [hki]
    · simp only [update_of_ne hki] at hk ⊢
      exact h.owned k hk
  · obtain ⟨hk, hname⟩ := h.named k hk
    simp only [update_of_ne (hne k hk)]
    exact ⟨hk, hname⟩
  · by_cases hki : k = i
    · subst hki
      have hjk : j ≠ k := fun heq => not_mem_passed (heq ▸ hj)
      simp only [update_self, update_of_ne hjk] at hj ⊢
      exact hpre j hj
    · simp only [update_of_ne hki] at hk hj ⊢
      have hold := h.place k hk j hj
      rwa [update_of_ne (hne j hold.1)]
  · exact update_of_ne (hne k hk) _ _
  · exact update_of_ne (hne k hk) _ _

/-! ## The calls -/

/-- What a worker relies on, and what it guarantees. -/
abbrev LanesRely (g : Config) (s s' : LaneTable) : Prop := LanesInv g s' ∧ LanesKept s s'

abbrev LanesGuar (g : Config) (s s' : LaneTable) : Prop :=
  LanesInv g s → LanesInv g s' ∧ LanesKept s s'

theorem publishName_valid (hqh : g.laneHash queue ≠ 0) (hi : s.hash i = g.laneHash queue)
    (hclaim : s.claim i = queue) : (publishName i (queue.take QUEUE_NAME_MAX)).Valid (LanesRely g)
      (LanesGuar g) (LaneFound (g.laneHash queue)) s := by
  refine valid_atom fun s₁ h₁ => ?_
  have hi₁ : s₁.hash i = g.laneHash queue := (h₁.2.hash i (hi ▸ hqh)).trans hi
  have hc₁ : s₁.claim i = queue := (h₁.2.claim i (hi ▸ hqh)).trans hclaim
  have hname : ∀ k, s₁.name k = (s₁.claim k).take QUEUE_NAME_MAX →
      update s₁.name i (queue.take QUEUE_NAME_MAX) k = s₁.name k := by
    intro k hk
    by_cases hki : k = i
    · subst hki
      rw [update_self, hk, hc₁]
    · exact update_of_ne hki _ _
  refine ⟨fun hinv => ⟨⟨hinv.owned, fun k hk => ?_, hinv.place⟩, fun _ _ => rfl, fun _ _ => rfl,
    fun k _ => hname k⟩, valid_atom fun s₂ h₂ => ?_⟩
  · obtain ⟨hk, hn, hlen⟩ := hinv.named k hk
    dsimp only
    rw [hname k hn]
    exact ⟨hk, hn, hlen⟩
  have hi₂ : s₂.hash i = g.laneHash queue := (h₂.2.hash i (hi₁ ▸ hqh)).trans hi₁
  have hc₂ : s₂.claim i = queue := (h₂.2.claim i (hi₁ ▸ hqh)).trans hc₁
  have hn₂ : s₂.name i = queue.take QUEUE_NAME_MAX := by
    rw [h₂.2.name i (hi₁ ▸ hqh) (by simp [hc₁])]
    simp
  refine ⟨fun hinv => ⟨⟨hinv.owned, fun k hk => ?_, hinv.place⟩, fun _ _ => rfl, fun _ _ => rfl,
    fun _ _ _ => rfl⟩, hi₂⟩
  by_cases hki : k = i
  · subst hki
    exact ⟨hi₂ ▸ hqh, by rw [hn₂, hc₂], by rw [hn₂]; simp⟩
  · simp only [update_of_ne hki] at hk ⊢
    exact hinv.named k hk

/-- **The walk** of a worker that has passed the lanes `pre` of others. -/
theorem claimLane_valid {pre rest : List Nat} (hpath : laneProbe (g.laneHash queue) = pre ++ rest)
    (hpre : ∀ j ∈ pre, s.hash j ≠ 0 ∧ s.hash j ≠ g.laneHash queue) :
    (claimLane (g.laneHash queue) queue rest).Valid (LanesRely g) (LanesGuar g)
      (LaneFound (g.laneHash queue)) s := by
  have hrefl : ∀ s, LanesGuar g s s := fun s hs => ⟨hs, .refl s⟩
  induction rest generalizing pre s with
  | nil =>
    intro i hi
    rw [append_nil] at hpath
    exact hpre i (hpath ▸ mem_laneProbe _ hi)
  | cons i rest ih =>
    have hnext : ∀ s, (∀ j ∈ pre, s.hash j ≠ 0 ∧ s.hash j ≠ g.laneHash queue) → s.hash i ≠ 0 →
        s.hash i ≠ g.laneHash queue → (claimLane (g.laneHash queue) queue rest).Valid (LanesRely g)
          (LanesGuar g) (LaneFound (g.laneHash queue)) s := by
      intro s hpre hne hother
      have hpath' : laneProbe (g.laneHash queue) = (pre ++ [i]) ++ rest := by simp [hpath]
      refine ih hpath' fun j hj => ?_
      rcases mem_append.1 hj with hj | hj
      · exact hpre j hj
      · rw [mem_singleton.1 hj]
        exact ⟨hne, hother⟩
    refine valid_read hrefl fun s₁ h₁ => ?_
    have hpre₁ := fun j hj => h₁.2.others (hpre j hj)
    split
    next hown => exact hown
    next hother =>
    split
    next hne => exact hnext s₁ hpre₁ hne hother
    next =>
    refine valid_atom fun s₂ h₂ => ?_
    have hpre₂ := fun j hj => h₂.2.others (hpre₁ j hj)
    split
    next hfree =>
      refine ⟨fun hinv => hinv.claim hfree fun j hj => hpre₂ j (passed_subset (hpath ▸ hj)), ?_⟩
      exact publishName_valid (g.laneHash_ne_zero queue) (by simp) (by simp)
    next hne =>
      refine ⟨hrefl s₂, ?_⟩
      split
      next hown => exact hown
      next hother => exact hnext s₂ hpre₂ hne hother

theorem lanes_joint (g : Config) : Pool.Joint (laneCode g) (fun (x : Empty) _ => x.elim)
    (LanesInv g) LanesKept fun c => LaneFound (g.laneHash c.queue) where
  refl := .refl
  trans _ _ _ := .trans
  calls c s _ := by
    refine Valid.bind ((claimLane_valid (nil_append _).symm (by simp)).post fun o s ho => ?_)
    cases o with
    | none => exact ho
    | some i =>
      refine valid_atom fun s₁ h₁ => ?_
      have ho₁ := ho.kept (g.laneHash_ne_zero _) h₁.2
      cases c with
      | laneFor queue => exact ⟨fun hinv => ⟨hinv, .refl s₁⟩, ho₁⟩
      | markPolled queue now | markDrained queue now =>
        exact ⟨fun hinv => ⟨⟨hinv.owned, hinv.named, hinv.place⟩, fun _ _ => rfl, fun _ _ => rfl,
          fun _ _ _ => rfl⟩, ho₁⟩
  env x := x.elim
  stays c _ _ _ h ho := ho.kept (g.laneHash_ne_zero c.queue) h

theorem lanesInv_zeroed (g : Config) : LanesInv g .zeroed :=
  ⟨fun _ h => absurd rfl h, fun _ h => absurd rfl h, fun _ h => absurd rfl h⟩

theorem LanesInv.hash_inj (h : LanesInv g s) {j : Nat} (hi : i < LANES) (hj : j < LANES)
    (hne : s.hash i ≠ 0) (heq : s.hash j = s.hash i) : j = i := by
  rcases mem_passed_or (mem_laneProbe (s.hash i) hj) (mem_laneProbe _ hi) with hji | hji | hij
  · exact hji
  · exact absurd heq (h.place i hne j hji).2
  · exact absurd heq.symm (h.place j (heq ▸ hne) i (heq ▸ hij)).2

/-- **A lane belongs to one queue.** In every run, a lane that is claimed keeps its hash for ever,
and no other lane ever has it; the name that is published is the start of the name of a queue with
that hash; a call returns the lane of its queue, and none only when all lanes are those of other
queues. -/
theorem lanes_belong (g : Config) (es es' : List (Event LaneCall Empty)) :
    (∀ i < LANES, (lanesAfter g es).shared.hash i ≠ 0 →
      (lanesAfter g (es ++ es')).shared.hash i = (lanesAfter g es).shared.hash i ∧
      ∀ j < LANES, (lanesAfter g (es ++ es')).shared.hash j = (lanesAfter g es).shared.hash i →
        j = i) ∧ (∀ i, (lanesAfter g es).shared.nameLen i ≠ 0 → ∃ queue,
      (lanesAfter g es).shared.hash i = g.laneHash queue ∧
      ((lanesAfter g es).shared.name i).take ((lanesAfter g es).shared.nameLen i) =
        queue.take QUEUE_NAME_MAX) ∧ ∀ x ∈ (lanesAfter g es).done,
      LaneFound (g.laneHash x.call.queue) x.res (lanesAfter g (es ++ es')).shared := by
  have hes := ((lanes_joint g).runs es (Pool.joined_start (lanesInv_zeroed g))).1
  have hmore := (lanes_joint g).runs es' hes
  rw [← Run.runs_append] at hmore
  obtain ⟨hend, hkept⟩ := hmore
  refine ⟨fun i hi hne => ?_, fun i hi => ?_, fun x hx => ?_⟩
  · have hsame := hkept.hash i hne
    refine ⟨hsame, fun j hj heq => ?_⟩
    exact hend.inv.hash_inj hi hj (hsame ▸ hne) (heq.trans hsame.symm)
  · obtain ⟨hne, hname, hlen⟩ := hes.inv.named i hi
    exact ⟨_, hes.inv.owned i hne, by rw [lanesAfter, hlen, take_length, hname]⟩
  · exact (hes.done x hx).kept (g.laneHash_ne_zero _) hkept

end Askr.Queue
