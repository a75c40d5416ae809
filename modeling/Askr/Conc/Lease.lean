import Mathlib.Data.Set.Insert
import Mathlib.Logic.Function.Basic
import Mathlib.Tactic.Common

/-!
# Leased jobs

A queue whose jobs are handed out for a time. A job that is taken goes out under a lease, a number
that was never given out before, until some point of the clock; whoever holds the lease drops the
job or gives it back, and once the time is over anybody may take it again. `Step` is what can
happen, under the labels an observer sees, and `Traced` a whole history.

`Fenced` is what such a queue promises of its labels (`Traced.kept`): leases are distinct, a lease
ends a reservation once at most and only while it is the last one given out for its job, and a job
is not taken twice within one reservation unless its holder gave it back.
-/

namespace Lease

open Function List

variable {α : Type}

/-- A job: what it carries, the lease it is out under (`0` when nobody has it), and until when. -/
structure Item (α : Type) where
  data : α
  lease : Nat
  till : Nat

structure State (α : Type) where
  jobs : Nat → Option (Item α)
  /-- The names of all jobs there have been. -/
  seen : Set Nat
  /-- The last lease given out. -/
  last : Nat
  clock : Nat

/-- What an observer sees of a step. -/
inductive Label (α : Type) where
  /-- A new job. -/
  | put (j : Nat) (a : α)
  /-- A job goes out under a lease. -/
  | take (l j till clock : Nat)
  /-- The holder of a lease drops the job. -/
  | drop (l j : Nat)
  /-- The holder of a lease gives the job back. -/
  | back (l j : Nat)
deriving DecidableEq

/-- The lease a step gives out. -/
def Label.gives : Label α → Option Nat
  | .take l _ _ _ => some l
  | _ => none

def Label.ends : Label α → Option Nat
  | .drop l _ => some l
  | .back l _ => some l
  | _ => none

def State.start (clock : Nat) : State α :=
  { jobs := fun _ => none, seen := ∅, last := 0, clock }

inductive Step : State α → Label α → State α → Prop where
  | put (s : State α) {j : Nat} (a : α) : j ∉ s.seen →
      Step s (.put j a)
        { s with jobs := update s.jobs j (some ⟨a, 0, 0⟩), seen := insert j s.seen }
  | take (s : State α) {j l : Nat} {it : Item α} (till : Nat) : s.jobs j = some it →
      it.till ≤ s.clock → s.last < l →
      Step s (.take l j till s.clock)
        { s with jobs := update s.jobs j (some ⟨it.data, l, till⟩), last := l }
  | drop (s : State α) {j : Nat} {it : Item α} : s.jobs j = some it → it.lease ≠ 0 →
      Step s (.drop it.lease j) { s with jobs := update s.jobs j none }
  | back (s : State α) {j : Nat} {it : Item α} : s.jobs j = some it → it.lease ≠ 0 →
      Step s (.back it.lease j)
        { s with jobs := update s.jobs j (some ⟨it.data, 0, 0⟩) }

/-- A history from the empty queue, oldest first, and the state it ends in. -/
inductive Traced : List (Label α) → State α → Prop where
  | start (clock : Nat) : Traced [] (.start clock)
  | tick {tr : List (Label α)} {s : State α} (c : Nat) : Traced tr s → s.clock ≤ c →
      Traced tr { s with clock := c }
  | step {tr : List (Label α)} {s s' : State α} {x : Label α} : Traced tr s → Step s x s' →
      Traced (tr ++ [x]) s'

/-- No job `j` is taken in the history. -/
def NotTaken (j : Nat) (tr : List (Label α)) : Prop := ∀ l u c, .take l j u c ∉ tr

/-- **What a history promises.** -/
structure Fenced (tr : List (Label α)) : Prop where
  /-- No lease is given out twice. -/
  distinct : (tr.filterMap Label.gives).Nodup
  /-- No lease ends twice. -/
  once : (tr.filterMap Label.ends).Nodup
  /-- A lease ends the reservation it was given out for, and the job was not taken since. -/
  current : ∀ tr₁ x tr₂ l j, tr = tr₁ ++ x :: tr₂ → (x = .drop l j ∨ x = .back l j) →
    ∃ tr₀ u c mid, tr₁ = tr₀ ++ .take l j u c :: mid ∧ NotTaken j mid
  /-- A job is taken again when its time is over, or when its holder has given it back. -/
  exclusive : ∀ tr₁ l j u c mid l' u' c' tr₂,
    tr = tr₁ ++ .take l j u c :: (mid ++ .take l' j u' c' :: tr₂) → u ≤ c' ∨ .back l j ∈ mid

/-! ## The state knows the history -/

/-- What the state keeps of the history. -/
structure Kept (tr : List (Label α)) (s : State α) : Prop where
  /-- A job that is there has been put there. -/
  known : ∀ j it, s.jobs j = some it → j ∈ s.seen
  /-- Leases given out, and jobs taken. -/
  given : ∀ l j u c, .take l j u c ∈ tr → l ≤ s.last ∧ j ∈ s.seen
  /-- A lease that ended is nobody's. -/
  ended : ∀ x ∈ tr, ∀ l, x.ends = some l →
    l ≠ 0 ∧ l ≤ s.last ∧ ∀ j it, s.jobs j = some it → it.lease ≠ l
  /-- No two jobs are out under one lease. -/
  unique : ∀ j j' it it', s.jobs j = some it → s.jobs j' = some it' → it.lease ≠ 0 →
    it.lease = it'.lease → j = j'
  /-- The lease of a job is the last one it was taken under. -/
  held : ∀ j it, s.jobs j = some it → it.lease ≠ 0 →
    ∃ tr₀ u c mid, tr = tr₀ ++ .take it.lease j u c :: mid ∧ NotTaken j mid
  /-- A reservation is running, or is over, or was given back. -/
  running : ∀ tr₁ l j u c mid it, tr = tr₁ ++ .take l j u c :: mid → s.jobs j = some it →
    (it.lease = l ∧ it.till = u) ∨ u ≤ s.clock ∨ .back l j ∈ mid
  /-- A job that was put is there with what it carries, or was dropped. -/
  present : ∀ j a, .put j a ∈ tr →
    (∃ l, .drop l j ∈ tr) ∨ ∃ it, s.jobs j = some it ∧ it.data = a

theorem snoc_eq_append_cons {β : Type} {tr tr₁ tr₂ : List β} {x y : β} :
    tr ++ [x] = tr₁ ++ y :: tr₂ ↔
      (tr₂ = [] ∧ tr₁ = tr ∧ y = x) ∨ ∃ mid, tr₂ = mid ++ [x] ∧ tr = tr₁ ++ y :: mid := by
  constructor
  · intro h
    rcases eq_nil_or_concat tr₂ with rfl | ⟨mid, z, rfl⟩
    · obtain ⟨rfl, hx⟩ := append_inj' h rfl
      exact .inl ⟨rfl, rfl, (singleton_inj.1 hx).symm⟩
    · rw [concat_eq_append, ← cons_append, ← append_assoc] at h
      obtain ⟨rfl, hx⟩ := append_inj' h rfl
      exact .inr ⟨mid, by rw [singleton_inj.1 hx, concat_eq_append], rfl⟩
  · rintro (⟨rfl, rfl, rfl⟩ | ⟨mid, rfl, rfl⟩) <;> simp

theorem NotTaken.snoc {j : Nat} {tr : List (Label α)} {x : Label α} (h : NotTaken j tr)
    (hx : ∀ l u c, x ≠ .take l j u c) : NotTaken j (tr ++ [x]) := by
  intro l u c hmem
  rcases mem_append.1 hmem with hmem | hmem
  exacts [h l u c hmem, hx l u c (mem_singleton.1 hmem).symm]

section
variable {f : Nat → Option (Item α)} {j j' : Nat} {it a : Item α}

theorem update_some_eq_some :
    update f j (some a) j' = some it ↔ (j' = j ∧ it = a) ∨ (j' ≠ j ∧ f j' = some it) := by
  by_cases h : j' = j
  · subst h
    simp [eq_comm]
  · simp [h]

theorem update_keeps (hj : f j = some it) {new it' : Item α} (hnew : new.data = it.data)
    (hit : f j' = some it') :
    ∃ it'', update f j (some new) j' = some it'' ∧ it''.data = it'.data := by
  by_cases h : j' = j
  · subst h
    rw [hj] at hit
    cases hit
    exact ⟨new, by simp, hnew⟩
  · exact ⟨it', by simpa [h] using hit, rfl⟩

theorem update_none_eq_some : update f j none j' = some it ↔ j' ≠ j ∧ f j' = some it := by
  by_cases h : j' = j
  · subst h
    simp
  · simp [h]

end

section
variable {tr : List (Label α)} {s : State α} {j : Nat} {it : Item α}

theorem Kept.start (clock : Nat) : Kept ([] : List (Label α)) (.start clock) := by
  constructor <;> simp [State.start]

theorem Kept.tick (h : Kept tr s) {c : Nat} (hc : s.clock ≤ c) : Kept tr { s with clock := c } :=
  { known := h.known
    given := h.given
    ended := h.ended
    unique := h.unique
    held := h.held
    running := fun tr₁ l j u c' mid it heq hit =>
      (h.running tr₁ l j u c' mid it heq hit).imp_right (Or.imp_left hc.trans')
    present := h.present }

theorem Kept.held_snoc (h : Kept tr s) (hit : s.jobs j = some it) (hl : it.lease ≠ 0) {x : Label α}
    (hx : ∀ l u c, x ≠ .take l j u c) :
    ∃ tr₀ u c mid, tr ++ [x] = tr₀ ++ .take it.lease j u c :: mid ∧ NotTaken j mid := by
  obtain ⟨tr₀, u, c, mid, rfl, hmid⟩ := h.held j it hit hl
  exact ⟨tr₀, u, c, mid ++ [x], by simp, hmid.snoc hx⟩

theorem Kept.running_snoc (h : Kept tr s) {l u c : Nat} (hit : s.jobs j = some it) {x : Label α}
    {tr₁ mid : List (Label α)} (heq : tr ++ [x] = tr₁ ++ .take l j u c :: mid)
    (hx : x ≠ .take l j u c) : (it.lease = l ∧ it.till = u) ∨ u ≤ s.clock ∨ .back l j ∈ mid := by
  rcases snoc_eq_append_cons.1 heq with ⟨-, -, rfl⟩ | ⟨mid', rfl, heq'⟩
  · exact absurd rfl hx
  · exact (h.running tr₁ l j u c mid' it heq' hit).imp_right
      (Or.imp_right (mem_append_left _))

theorem Kept.present_snoc (h : Kept tr s) {x : Label α} {a : α} (hmem : .put j a ∈ tr)
    {f : Nat → Option (Item α)} (hf : ∀ it, s.jobs j = some it →
      (∃ l, x = .drop l j) ∨ ∃ it', f j = some it' ∧ it'.data = it.data) :
    (∃ l, .drop l j ∈ tr ++ [x]) ∨ ∃ it, f j = some it ∧ it.data = a := by
  rcases h.present j a hmem with ⟨l, hl⟩ | ⟨it, hit, rfl⟩
  · exact .inl ⟨l, mem_append_left _ hl⟩
  · rcases hf it hit with ⟨l, rfl⟩ | hit'
    exacts [.inl ⟨l, by simp⟩, .inr hit']

theorem Kept.lease_le (h : Kept tr s) (hit : s.jobs j = some it) : it.lease ≤ s.last := by
  by_cases hl : it.lease = 0
  · omega
  · obtain ⟨tr₀, u, c, mid, rfl, -⟩ := h.held j it hit hl
    exact (h.given it.lease j u c (by simp)).1

/-! A job whose lease ends is left out of what is said about leases. -/

section
variable {f : Nat → Option (Item α)}
  (hf : ∀ j' it', f j' = some it' → it'.lease = 0 ∨ j' ≠ j ∧ s.jobs j' = some it')
include hf

theorem Kept.ended_freed (h : Kept tr s) {x : Label α}
    (hx : ∀ l, x.ends = some l → l ≠ 0 ∧ ∃ it, s.jobs j = some it ∧ it.lease = l) {y : Label α}
    (hy : y ∈ tr ++ [x]) {l : Nat} (hl : y.ends = some l) :
    l ≠ 0 ∧ l ≤ s.last ∧ ∀ j' it', f j' = some it' → it'.lease ≠ l := by
  rcases mem_append.1 hy with hy | hy
  · obtain ⟨hne, hle, hno⟩ := h.ended y hy l hl
    refine ⟨hne, hle, fun j' it' hit => ?_⟩
    rcases hf j' it' hit with hz | ⟨-, hit⟩
    exacts [hz ▸ hne.symm, hno j' it' hit]
  · rw [mem_singleton.1 hy] at hl
    obtain ⟨hne, it, hj, rfl⟩ := hx l hl
    refine ⟨hne, h.lease_le hj, fun j' it' hit heq => ?_⟩
    rcases hf j' it' hit with hz | ⟨hjj, hit⟩
    exacts [hne (heq ▸ hz), hjj (h.unique j j' it it' hj hit hne heq.symm).symm]

theorem Kept.unique_freed (h : Kept tr s) {j₁ j₂ : Nat} {it₁ it₂ : Item α} (h₁ : f j₁ = some it₁)
    (h₂ : f j₂ = some it₂) (hl : it₁.lease ≠ 0) (heq : it₁.lease = it₂.lease) : j₁ = j₂ := by
  rcases hf j₁ it₁ h₁ with hz | ⟨-, h₁⟩
  · exact absurd hz hl
  · rcases hf j₂ it₂ h₂ with hz | ⟨-, h₂⟩
    exacts [absurd (heq.trans hz) hl, h.unique j₁ j₂ it₁ it₂ h₁ h₂ hl heq]

theorem Kept.held_freed (h : Kept tr s) {j' : Nat} {it : Item α} (hit : f j' = some it)
    (hl : it.lease ≠ 0) {x : Label α} (hx : ∀ l u c, x ≠ .take l j' u c) :
    ∃ tr₀ u c mid, tr ++ [x] = tr₀ ++ .take it.lease j' u c :: mid ∧ NotTaken j' mid := by
  rcases hf j' it hit with hz | ⟨-, hit⟩
  exacts [absurd hz hl, h.held_snoc hit hl hx]

end

theorem freed_update (s : State α) (j : Nat) (a : α) (j' : Nat) (it' : Item α)
    (h : update s.jobs j (some ⟨a, 0, 0⟩) j' = some it') :
    it'.lease = 0 ∨ j' ≠ j ∧ s.jobs j' = some it' :=
  (update_some_eq_some.1 h).imp_left fun ⟨_, hit⟩ => hit ▸ rfl

theorem Kept.put (h : Kept tr s) (hj : j ∉ s.seen) (a : α) : Kept (tr ++ [.put j a])
      { s with jobs := update s.jobs j (some ⟨a, 0, 0⟩), seen := insert j s.seen } where
  known := by
    intro j' it hit
    rcases update_some_eq_some.1 hit with ⟨rfl, -⟩ | ⟨-, hit⟩
    exacts [Set.mem_insert _ _, Set.mem_insert_of_mem _ (h.known j' it hit)]
  given := by
    intro l j' u c hmem
    have hold := h.given l j' u c (by simpa using hmem)
    exact ⟨hold.1, Set.mem_insert_of_mem _ hold.2⟩
  ended := fun _ hx _ hl => h.ended_freed (freed_update s j a) (fun _ hl => by cases hl) hx hl
  unique := fun _ _ _ _ h₁ h₂ => h.unique_freed (freed_update s j a) h₁ h₂
  held := fun _ _ hit hl => h.held_freed (freed_update s j a) hit hl (by simp)
  running := by
    intro tr₁ l j' u c mid it heq hit
    rcases update_some_eq_some.1 hit with ⟨rfl, -⟩ | ⟨-, hit⟩
    · have hmem : Label.take l j' u c ∈ tr ++ [.put j' a] := heq ▸ by simp
      exact absurd (h.given l j' u c (by simpa using hmem)).2 hj
    · exact h.running_snoc hit heq (by simp)
  present := by
    intro j' b hmem
    rcases mem_append.1 hmem with hmem | hmem
    · refine h.present_snoc hmem fun it hit => .inr ⟨it, ?_, rfl⟩
      have hjj : j' ≠ j := fun heq => hj (heq ▸ h.known j' it hit)
      simpa [hjj] using hit
    · cases mem_singleton.1 hmem
      exact .inr ⟨⟨a, 0, 0⟩, by simp, rfl⟩

theorem Kept.take (h : Kept tr s) (hj : s.jobs j = some it) (htill : it.till ≤ s.clock) {l : Nat}
    (hl : s.last < l) (till : Nat) : Kept (tr ++ [.take l j till s.clock])
      { s with jobs := update s.jobs j (some ⟨it.data, l, till⟩), last := l } where
  known := by
    intro j' it' hit
    rcases update_some_eq_some.1 hit with ⟨rfl, -⟩ | ⟨-, hit⟩
    exacts [h.known j' it hj, h.known j' it' hit]
  given := by
    intro l' j' u c hmem
    rcases mem_append.1 hmem with hmem | hmem
    · have hold := h.given l' j' u c hmem
      exact ⟨(hold.1.trans hl.le : l' ≤ l), hold.2⟩
    · cases mem_singleton.1 hmem
      exact ⟨le_rfl, h.known j it hj⟩
  ended := by
    intro x hx l' hl'
    rcases mem_append.1 hx with hx | hx
    · obtain ⟨hne, hle, hno⟩ := h.ended x hx l' hl'
      refine ⟨hne, (hle.trans hl.le : l' ≤ l), fun j' it' hit => ?_⟩
      rcases update_some_eq_some.1 hit with ⟨-, rfl⟩ | ⟨-, hit⟩
      exacts [(hle.trans_lt hl).ne', hno j' it' hit]
    · rw [mem_singleton.1 hx] at hl'
      cases hl'
  unique := by
    intro j₁ j₂ it₁ it₂ h₁ h₂ hne heq
    rcases update_some_eq_some.1 h₁ with ⟨rfl, rfl⟩ | ⟨-, h₁'⟩ <;>
      rcases update_some_eq_some.1 h₂ with ⟨rfl, rfl⟩ | ⟨-, h₂'⟩
    · rfl
    · exact absurd heq ((h.lease_le h₂').trans_lt hl).ne'
    · exact absurd heq ((h.lease_le h₁').trans_lt hl).ne
    · exact h.unique j₁ j₂ it₁ it₂ h₁' h₂' hne heq
  held := by
    intro j' it' hit hne
    rcases update_some_eq_some.1 hit with ⟨rfl, rfl⟩ | ⟨hjj, hit⟩
    · exact ⟨tr, till, s.clock, [], rfl, by simp [NotTaken]⟩
    · exact h.held_snoc hit hne (by simp [hjj.symm])
  running := by
    intro tr₁ l' j' u c mid it' heq hit
    rcases update_some_eq_some.1 hit with ⟨rfl, rfl⟩ | ⟨hjj, hit⟩
    · rcases snoc_eq_append_cons.1 heq with ⟨-, -, hx⟩ | ⟨mid', rfl, heq'⟩
      · cases hx
        exact .inl ⟨rfl, rfl⟩
      · rcases h.running tr₁ l' j' u c mid' it heq' hj with ⟨-, rfl⟩ | hu | hback
        exacts [.inr (.inl htill), .inr (.inl hu), .inr (.inr (mem_append_left _ hback))]
    · exact h.running_snoc hit heq (by simp [hjj.symm])
  present := fun j' a hmem => h.present_snoc (by simpa using hmem) fun it' hit =>
    .inr (update_keeps hj rfl hit)

theorem Kept.drop (h : Kept tr s) (hj : s.jobs j = some it) (hl : it.lease ≠ 0) :
    Kept (tr ++ [.drop it.lease j]) { s with jobs := update s.jobs j none } where
  known := fun j' it' hit => h.known j' it' (update_none_eq_some.1 hit).2
  given := fun l j' u c hmem => h.given l j' u c (by simpa using hmem)
  ended := fun _ hx _ hx' => h.ended_freed (fun _ _ hit => .inr (update_none_eq_some.1 hit))
    (fun _ he => by cases he; exact ⟨hl, it, hj, rfl⟩) hx hx'
  unique := fun j₁ j₂ it₁ it₂ h₁ h₂ =>
    h.unique j₁ j₂ it₁ it₂ (update_none_eq_some.1 h₁).2 (update_none_eq_some.1 h₂).2
  held := fun j' it' hit hne => h.held_snoc (update_none_eq_some.1 hit).2 hne (by simp)
  running := fun tr₁ l j' u c mid it' heq hit =>
    h.running_snoc (update_none_eq_some.1 hit).2 heq (by simp)
  present := by
    intro j' a hmem
    refine h.present_snoc (by simpa using hmem) fun it' hit => ?_
    by_cases hjj : j' = j
    · exact .inl ⟨it.lease, by rw [hjj]⟩
    · exact .inr ⟨it', by simpa [hjj] using hit, rfl⟩

theorem Kept.back (h : Kept tr s) (hj : s.jobs j = some it) (hl : it.lease ≠ 0) :
    Kept (tr ++ [.back it.lease j]) { s with jobs := update s.jobs j (some ⟨it.data, 0, 0⟩) } where
  known := by
    intro j' it' hit
    rcases update_some_eq_some.1 hit with ⟨rfl, -⟩ | ⟨-, hit⟩
    exacts [h.known j' it hj, h.known j' it' hit]
  given := fun l j' u c hmem => h.given l j' u c (by simpa using hmem)
  ended := fun _ hx _ hx' => h.ended_freed (freed_update s j it.data)
    (fun _ he => by cases he; exact ⟨hl, it, hj, rfl⟩) hx hx'
  unique := fun _ _ _ _ h₁ h₂ => h.unique_freed (freed_update s j it.data) h₁ h₂
  held := fun _ _ hit hne => h.held_freed (freed_update s j it.data) hit hne (by simp)
  running := by
    intro tr₁ l j' u c mid it' heq hit
    rcases update_some_eq_some.1 hit with ⟨rfl, rfl⟩ | ⟨-, hit⟩
    · rcases snoc_eq_append_cons.1 heq with ⟨-, -, hx⟩ | ⟨mid', rfl, heq'⟩
      · cases hx
      · rcases h.running tr₁ l j' u c mid' it heq' hj with ⟨rfl, -⟩ | hu | hback
        exacts [.inr (.inr (by simp)), .inr (.inl hu),
          .inr (.inr (mem_append_left _ hback))]
    · exact h.running_snoc hit heq (by simp)
  present := fun j' a hmem => h.present_snoc (by simpa using hmem) fun it' hit =>
    .inr (update_keeps hj rfl hit)

/-- Every step keeps the history. -/
theorem Kept.step (h : Kept tr s) {x : Label α} {s' : State α} (hs : Step s x s') :
    Kept (tr ++ [x]) s' := by
  cases hs with
  | put a hj => exact h.put hj a
  | take till hj htill hl => exact h.take hj htill hl till
  | drop hj hl => exact h.drop hj hl
  | back hj hl => exact h.back hj hl

end

/-! ## The promise -/

theorem Fenced.nil : Fenced ([] : List (Label α)) where
  distinct := .nil
  once := .nil
  current := fun tr₁ x tr₂ l j h => absurd h (by simp)
  exclusive := fun tr₁ l j u c mid l' u' c' tr₂ h => absurd h (by simp)

theorem nodup_filterMap_snoc {β γ : Type} {f : β → Option γ} {l : List β} {x : β}
    (h : (l.filterMap f).Nodup) (hx : ∀ y, f x = some y → y ∉ l.filterMap f) :
    ((l ++ [x]).filterMap f).Nodup := by
  rw [filterMap_append]
  cases hfx : f x with
  | none => simpa [hfx] using h
  | some y =>
    rw [filterMap_cons_some hfx, filterMap_nil, nodup_append]
    exact ⟨h, by simp, fun a ha b hb heq =>
      hx y hfx (mem_singleton.1 hb ▸ heq ▸ ha)⟩

theorem Fenced.snoc {tr : List (Label α)} (h : Fenced tr) {x : Label α}
    (hgives : ∀ l, x.gives = some l → l ∉ tr.filterMap Label.gives)
    (hends : ∀ l, x.ends = some l → l ∉ tr.filterMap Label.ends)
    (hcurrent : ∀ l j, (x = .drop l j ∨ x = .back l j) →
      ∃ tr₀ u c mid, tr = tr₀ ++ .take l j u c :: mid ∧ NotTaken j mid)
    (hexclusive : ∀ l' j u' c', x = .take l' j u' c' → ∀ tr₁ l u c mid,
      tr = tr₁ ++ .take l j u c :: mid → u ≤ c' ∨ .back l j ∈ mid) : Fenced (tr ++ [x]) where
  distinct := nodup_filterMap_snoc h.distinct hgives
  once := nodup_filterMap_snoc h.once hends
  current := by
    intro tr₁ y tr₂ l j heq hy
    rcases snoc_eq_append_cons.1 heq with ⟨-, rfl, rfl⟩ | ⟨mid, -, heq'⟩
    exacts [hcurrent l j hy, h.current tr₁ y mid l j heq' hy]
  exclusive := by
    intro tr₁ l j u c mid l' u' c' tr₂ heq
    rw [← cons_append, ← append_assoc] at heq
    rcases snoc_eq_append_cons.1 heq with ⟨-, htr, hx⟩ | ⟨mid', -, heq'⟩
    · exact hexclusive l' j u' c' hx.symm tr₁ l u c mid htr.symm
    · exact h.exclusive tr₁ l j u c mid l' u' c' mid' (by simpa using heq')

theorem Kept.lease_notMem_ends {tr : List (Label α)} {s : State α} {j : Nat} {it : Item α}
    (h : Kept tr s) (hj : s.jobs j = some it) : it.lease ∉ tr.filterMap Label.ends := by
  intro hmem
  obtain ⟨y, hy, hy'⟩ := mem_filterMap.1 hmem
  exact (h.ended y hy _ hy').2.2 j it hj rfl

/-- **One step keeps the promise.** -/
theorem Fenced.step {tr : List (Label α)} {s s' : State α} {x : Label α} (h : Fenced tr)
    (hk : Kept tr s) (hs : Step s x s') : Fenced (tr ++ [x]) := by
  cases hs with
  | put a hj =>
    exact h.snoc (fun _ hg => by cases hg) (fun _ he => by cases he)
      (fun _ _ hx => by rcases hx with hx | hx <;> cases hx) (fun _ _ _ _ hx => by cases hx)
  | @take j l it till hj htill hl =>
    refine h.snoc (fun l' hg hmem => ?_) (fun _ he => by cases he)
      (fun _ _ hx => by rcases hx with hx | hx <;> cases hx) fun l' j' u' c' hx => ?_
    · cases hg
      obtain ⟨y, hy, hy'⟩ := mem_filterMap.1 hmem
      cases y with
      | take l' j' u c =>
        cases hy'
        exact absurd (hk.given l j' u c hy).1 (Nat.not_le.2 hl)
      | _ => cases hy'
    · cases hx
      intro tr₁ l₁ u c mid heq
      rcases hk.running tr₁ l₁ j u c mid it heq hj with ⟨-, rfl⟩ | hu | hback
      exacts [.inl htill, .inl hu, .inr hback]
  | drop hj hl =>
    refine h.snoc (fun _ hg => by cases hg) (fun l he => ?_) (fun l j' hx => ?_)
      (fun _ _ _ _ hx => by cases hx)
    · cases he
      exact hk.lease_notMem_ends hj
    · rcases hx with hx | hx <;> cases hx
      exact hk.held _ _ hj hl
  | back hj hl =>
    refine h.snoc (fun _ hg => by cases hg) (fun l he => ?_) (fun l j' hx => ?_)
      (fun _ _ _ _ hx => by cases hx)
    · cases he
      exact hk.lease_notMem_ends hj
    · rcases hx with hx | hx <;> cases hx
      exact hk.held _ _ hj hl

theorem Traced.kept {tr : List (Label α)} {s : State α} (h : Traced tr s) :
    Fenced tr ∧ Kept tr s := by
  induction h with
  | start clock => exact ⟨.nil, .start clock⟩
  | tick c _ hc ih => exact ⟨ih.1, ih.2.tick hc⟩
  | step _ hs ih => exact ⟨ih.1.step ih.2 hs, ih.2.step hs⟩

end Lease
