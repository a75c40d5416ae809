import Askr.Conc.Run
import Mathlib.Logic.Function.Basic

/-!
# The lock of a shared-memory slot

`shmlock.rs`: a lock word that holds the PID of its holder, `0` when it is free. `acquire` spins,
then looks at the holder: it steals from one whose process is gone, and from one it has watched for
ten seconds. A thread of the model is at one atomic access of `acquire`, idle, or inside its
critical section. How long a waiter pauses is left to the schedule.

The watch of a waiter is on a PID and survives a release and a new `acquire` by the same process, so
a waiter may steal from a thread that has just entered (`two_inside`). Where the lock was held all
the time a watch was on it (`Unmoved`), it excludes (`excludes`).
-/

namespace Askr.Shmlock

open Function Run

def SPINS : Nat := 40000
/-- Ten seconds, in nanoseconds. -/
def STUCK_LIMIT : Nat := 10000000000

/-- A process: running, ended but not yet waited for, or unknown to the kernel. -/
inductive Proc where
  | live
  | zombie
  | gone
deriving DecidableEq

/-- A holder and since when it has been watched. -/
abbrev Watched := Option (Nat × Nat)

/-- Where a thread is. -/
inductive Pc where
  | idle
  /-- In the fast path, with `n` more tries before it looks at the holder. -/
  | spin (n : Nat) (w : Watched)
  /-- Before `process_alive(holder)`. -/
  | probe (holder : Nat) (w : Watched)
  /-- Before the exchange for a holder that is gone. -/
  | stealDead (holder : Nat) (w : Watched)
  /-- Before the match on `watched`. -/
  | watch (holder : Nat) (w : Watched)
  /-- Before the exchange for a holder that was watched for too long. -/
  | stealStuck (holder since : Nat)
  /-- Yielding or sleeping. -/
  | pause (w : Watched)
  /-- In the critical section, entered at `since`. -/
  | inside (since : Nat)
deriving DecidableEq

/-- The lock word, the processes and the threads. -/
@[ext] structure Sys where
  lock : Nat
  clock : Nat
  /-- When the lock was last taken. The code has no such word: it is there for the proofs. -/
  takenAt : Nat
  proc : Nat → Proc
  pc : Nat → Pc

/-- A free lock, and nobody who wants it. -/
def Sys.init (proc : Nat → Proc) (clock : Nat) : Sys :=
  { lock := 0, clock, takenAt := clock, proc, pc := fun _ => .idle }

/-- `process_alive`: the kernel knows the PID. -/
def Sys.processAlive (s : Sys) (p : Nat) : Bool := p ≠ 0 && s.proc p ≠ .gone

/-- The thread `t` goes on at `c`. -/
def Sys.goto (s : Sys) (t : Nat) (c : Pc) : Sys := { s with pc := update s.pc t c }

/-- An exchange that succeeded: `acquire` returns. -/
def Sys.take (s : Sys) (t me : Nat) : Sys :=
  { s with lock := me, takenAt := s.clock, pc := update s.pc t (.inside s.clock) }

section
variable (s : Sys) {t t' : Nat} (c : Pc) (me : Nat)

@[simp] theorem Sys.goto_lock : (s.goto t c).lock = s.lock := rfl
@[simp] theorem Sys.goto_goto (c' : Pc) : (s.goto t c).goto t c' = s.goto t c' := by simp [Sys.goto]
@[simp] theorem Sys.goto_self : (s.goto t c).pc t = c := by simp [Sys.goto]
@[simp] theorem Sys.goto_ne (h : t' ≠ t) : (s.goto t c).pc t' = s.pc t' := by simp [Sys.goto, h]
@[simp] theorem Sys.take_self : (s.take t me).pc t = .inside s.clock := by simp [Sys.take]
@[simp] theorem Sys.take_ne (h : t' ≠ t) : (s.take t me).pc t' = s.pc t' := by simp [Sys.take, h]

end

/-- One access of `acquire`, by the thread `t` of the process `me`. -/
def acquire (s : Sys) (t me : Nat) : Pc → Sys
  | .spin (n + 1) w => if s.lock = 0 then s.take t me else s.goto t (.spin n w)
  -- the fast path is over: load the holder
  | .spin 0 w => if s.lock = 0 then s.goto t (.spin SPINS w) else s.goto t (.probe s.lock w)
  | .probe holder w =>
    if s.processAlive holder then s.goto t (.watch holder w) else s.goto t (.stealDead holder w)
  | .stealDead holder w => if s.lock = holder then s.take t me else s.goto t (.spin SPINS w)
  | .watch holder (some (p, since)) =>
    if p = holder then
      if s.clock - since ≥ STUCK_LIMIT then s.goto t (.stealStuck holder since)
      else s.goto t (.pause (some (p, since)))
    else s.goto t (.pause (some (holder, s.clock)))
  | .watch holder none => s.goto t (.pause (some (holder, s.clock)))
  | .stealStuck holder _ => if s.lock = holder then s.take t me else s.goto t (.spin SPINS none)
  | .pause w => s.goto t (.spin SPINS w)
  | .idle => s
  | .inside _ => s

/-- `release`: the word is cleared, whatever it holds. -/
def release (s : Sys) (t : Nat) : Sys := { s.goto t .idle with lock := 0 }

inductive Event where
  /-- An idle thread calls `acquire`. -/
  | acquire (t : Nat)
  /-- A thread in `acquire` makes its next access. -/
  | step (t : Nat)
  /-- A thread leaves its critical section. -/
  | release (t : Nat)
  /-- A process ends, with all its threads. -/
  | die (p : Nat)
  /-- A process that ended is waited for, and its PID is gone. It is not used again. -/
  | reap (p : Nat)
  | tick (d : Nat)
deriving DecidableEq

section
variable (pid : Nat → Nat)

/-- The process of the thread runs. -/
def Sys.Live (s : Sys) (t : Nat) : Prop := s.proc (pid t) = .live

instance (s : Sys) (t : Nat) : Decidable (s.Live pid t) := inferInstanceAs (Decidable (_ = _))

/-- What one event does. Threads of a process that ended do nothing. -/
def exec (s : Sys) : Event → Sys
  | .acquire t => if s.Live pid t ∧ s.pc t = .idle then s.goto t (.spin SPINS none) else s
  | .step t => if s.Live pid t then acquire s t (pid t) (s.pc t) else s
  | .release t =>
    if s.Live pid t then
      match s.pc t with
      | .inside _ => release s t
      | _ => s
    else s
  | .die p => if s.proc p = .live then { s with proc := update s.proc p .zombie } else s
  | .reap p => if s.proc p = .zombie then { s with proc := update s.proc p .gone } else s
  | .tick d => { s with clock := s.clock + d }

/-- The thread is alive in its critical section. -/
def Sys.Inside (s : Sys) (t : Nat) : Prop := s.Live pid t ∧ ∃ since, s.pc t = .inside since

/-- Every critical section of a live process is shorter than ten seconds: time passes only while
each of them still is. -/
def Brief (s : Sys) (e : Event) : Prop :=
  ∀ d, e = .tick d → ∀ t since, s.Live pid t → s.pc t = .inside since →
    s.clock + d < since + STUCK_LIMIT

end

/-- The slot lock excludes: for any processes and threads, and any schedule in which every critical
section is shorter than ten seconds, at most one live thread is inside. -/
def Excludes : Prop :=
  ∀ (pid : Nat → Nat), (∀ t, pid t ≠ 0) → ∀ (proc : Nat → Proc) (clock : Nat) (es : List Event),
    Along (exec pid) (Brief pid) (.init proc clock) es →
      ∀ t t', (runs (exec pid) (.init proc clock) es).Inside pid t →
        (runs (exec pid) (.init proc clock) es).Inside pid t' → t = t'

/-! ## A watch that outlives the section it was on -/

section
variable {pid : Nat → Nat} {s : Sys} {t n : Nat} {w : Watched}

theorem runs_spin (hl : s.Live pid t) (hlock : s.lock ≠ 0) (hpc : s.pc t = .spin n w) :
    runs (exec pid) s (List.replicate n (.step t)) = s.goto t (.spin 0 w) := by
  induction n generalizing s with
  | zero => simp [Sys.goto, ← hpc]
  | succ n ih =>
    have hstep : exec pid s (.step t) = s.goto t (.spin n w) := by
      simp [exec, hl, hpc, acquire, hlock]
    have hrest := ih (s := s.goto t (.spin n w)) hl hlock (s.goto_self _)
    rw [List.replicate_succ, runs_cons, hstep, hrest, Sys.goto_goto]

/-- A round of a waiter: the fast path, the load and the look at the process. -/
def round (t : Nat) : List Event := List.replicate SPINS (.step t) ++ [.step t, .step t]

theorem runs_round (hl : s.Live pid t) (hlock : s.lock ≠ 0) (hknown : s.proc s.lock ≠ .gone)
    (hpc : s.pc t = .spin SPINS w) : runs (exec pid) s (round t) = s.goto t (.watch s.lock w) := by
  have hl' : ∀ c, (s.goto t c).Live pid t := fun _ => hl
  have hload : exec pid (s.goto t (.spin 0 w)) (.step t) = s.goto t (.probe s.lock w) := by
    rw [exec, if_pos (hl' _), Sys.goto_self, acquire, Sys.goto_lock, if_neg hlock, Sys.goto_goto]
  have hknown' : (s.goto t (.probe s.lock w)).processAlive s.lock := by
    simp [Sys.processAlive, Sys.goto, hlock, hknown]
  have hprobe : exec pid (s.goto t (.probe s.lock w)) (.step t) = s.goto t (.watch s.lock w) := by
    rw [exec, if_pos (hl' _), Sys.goto_self, acquire, if_pos hknown', Sys.goto_goto]
  rw [round, runs_append, runs_spin hl hlock hpc, runs_cons, hload, runs_cons, hprobe, runs_nil]

end

theorem along_brief {pid : Nat → Nat} (s : Sys) {es : List Event} (h : ∀ e ∈ es, ∀ d, e ≠ .tick d) :
    Along (exec pid) (Brief pid) s es :=
  (along_of_mem s h).mono fun _ _ he d hd => absurd hd (he d)

/-- Thread `0` is in its section when thread `1` begins to watch it, and leaves. -/
def watchBegins : List Event :=
  [.acquire 0, .step 0, .acquire 1] ++ round 1 ++ [.step 1, .release 0]

/-- Thread `0` enters another section, and thread `1` does its next round. -/
def watchEnds : List Event :=
  [.acquire 0, .step 0, .step 1] ++ round 1 ++ [.step 1, .step 1]

/-- Every process runs, and thread `1` has watched process `1` since time `0`. -/
def watching : Sys := (Sys.init (fun _ => .live) 0).goto 1 (.pause (some (1, 0)))

theorem runs_watchBegins :
    runs (exec Nat.succ) (.init (fun _ => .live) 0) watchBegins = watching := by
  rw [watchBegins, runs_append, runs_append,
    runs_round (show _ = _ from rfl) (by decide) (by decide) rfl]
  refine Sys.ext rfl rfl rfl rfl (funext fun t => ?_)
  rcases t with _ | _ | t <;> rfl

theorem brief_watching (d : Nat) : Brief Nat.succ watching (.tick d) := by
  intro _ _ t since _ ht
  rcases t with _ | _ | t <;> cases ht

/-- Ten seconds after thread `1` began to watch, thread `0` has just entered another section. Thread
`1` takes the lock from it, and both are inside. -/
theorem two_inside : ¬ Excludes := by
  intro h
  have hend : runs (exec Nat.succ) (.init (fun _ => .live) 0)
      (watchBegins ++ .tick STUCK_LIMIT :: watchEnds) =
        runs (exec Nat.succ) ((runs (exec Nat.succ) watching
          [.tick STUCK_LIMIT, .acquire 0, .step 0, .step 1]).goto 1 (.watch 1 (some (1, 0))))
          [.step 1, .step 1] := by
    have hround : runs (exec Nat.succ) (runs (exec Nat.succ) watching
        [.tick STUCK_LIMIT, .acquire 0, .step 0, .step 1]) (round 1) =
        (runs (exec Nat.succ) watching [.tick STUCK_LIMIT, .acquire 0, .step 0, .step 1]).goto 1
          (.watch 1 (some (1, 0))) :=
      runs_round (show _ = _ from rfl) (by decide) (by decide) rfl
    rw [runs_append, runs_watchBegins, ← hround, ← runs_append, ← runs_append]
    rfl
  have hbrief : Along (exec Nat.succ) (Brief Nat.succ) (.init (fun _ => .live) 0)
      (watchBegins ++ .tick STUCK_LIMIT :: watchEnds) := by
    refine along_append.2 ⟨along_brief _ ?_, ?_, along_brief _ ?_⟩
    · rintro e he d rfl
      simp [watchBegins, round] at he
    · rw [runs_watchBegins]
      exact brief_watching STUCK_LIMIT
    · rintro e he d rfl
      simp [watchEnds, round] at he
  have hmany := h Nat.succ (fun t => Nat.succ_ne_zero t) (fun _ => .live) 0 _ hbrief 0 1
  rw [hend] at hmany
  cases hmany ⟨rfl, STUCK_LIMIT, by decide⟩ ⟨rfl, STUCK_LIMIT, by decide⟩

/-! ## What an access can do -/

/-- What a thread knows at the point it is at. -/
def Pc.Ok (s : Sys) : Pc → Prop
  | .stealDead holder _ => s.proc holder = .gone ∨ holder = 0
  | .stealStuck _ since => since + STUCK_LIMIT ≤ s.clock
  | _ => True

theorem Pc.Ok.mono {s s' : Sys} {c : Pc} (hgone : ∀ p, s.proc p = .gone → s'.proc p = .gone)
    (hclock : s.clock ≤ s'.clock) (h : c.Ok s) : c.Ok s' := by
  cases c with
  | stealDead holder w => exact h.imp_left (hgone holder)
  | stealStuck holder since => exact Nat.le_trans h hclock
  | _ => trivial

/-- Why an exchange may succeed. -/
inductive Takes (s : Sys) : Pc → Prop where
  | free (n : Nat) (w : Watched) : s.lock = 0 → Takes s (.spin (n + 1) w)
  | dead (w : Watched) : Takes s (.stealDead s.lock w)
  | stuck (since : Nat) : Takes s (.stealStuck s.lock since)

/-- **What one access of `acquire` can do**: the thread goes on to a point it may be at, or it takes
the lock. -/
theorem acquire_cases (s : Sys) (t me : Nat) (c : Pc) : acquire s t me c = s ∨
      (∃ c', acquire s t me c = s.goto t c' ∧ (∀ x, c' ≠ .inside x) ∧ c'.Ok s) ∨
      (Takes s c ∧ acquire s t me c = s.take t me) := by
  cases c with
  | idle => exact .inl rfl
  | inside x => exact .inl rfl
  | spin n w =>
    refine .inr ?_
    cases n with
    | zero =>
      rw [acquire]
      split
      · exact .inl ⟨_, rfl, by simp, trivial⟩
      · exact .inl ⟨_, rfl, by simp, trivial⟩
    | succ n =>
      rw [acquire]
      split
      · rename_i h
        exact .inr ⟨.free n w h, rfl⟩
      · exact .inl ⟨_, rfl, by simp, trivial⟩
  | probe holder w =>
    refine .inr (.inl ?_)
    rw [acquire]
    split
    · exact ⟨_, rfl, by simp, trivial⟩
    · rename_i h
      refine ⟨_, rfl, by simp, ?_⟩
      simp only [Sys.processAlive, ne_eq, Bool.and_eq_true, decide_eq_true_eq] at h
      simp only [Pc.Ok]
      by_contra hno
      exact h ⟨fun h0 => hno (.inr h0), fun hg => hno (.inl hg)⟩
  | stealDead holder w =>
    refine .inr ?_
    rw [acquire]
    split
    · rename_i h
      exact .inr ⟨h ▸ .dead w, rfl⟩
    · exact .inl ⟨_, rfl, by simp, trivial⟩
  | watch holder w =>
    refine .inr (.inl ?_)
    cases w with
    | none => exact ⟨_, rfl, by simp, trivial⟩
    | some w =>
      obtain ⟨p, since⟩ := w
      rw [acquire]
      split
      · split
        · rename_i h
          refine ⟨_, rfl, by simp, ?_⟩
          simp only [Pc.Ok, STUCK_LIMIT] at h ⊢
          omega
        · exact ⟨_, rfl, by simp, trivial⟩
      · exact ⟨_, rfl, by simp, trivial⟩
  | stealStuck holder since =>
    refine .inr ?_
    rw [acquire]
    split
    · rename_i h
      exact .inr ⟨h ▸ .stuck since, rfl⟩
    · exact .inl ⟨_, rfl, by simp, trivial⟩
  | pause w => exact .inr (.inl ⟨_, rfl, by simp, trivial⟩)

/-! ## Exclusion -/

section
variable (pid : Nat → Nat)

/-- What holds in every state reached. -/
structure Inv (s : Sys) : Prop where
  ok : ∀ t, (s.pc t).Ok s
  /-- A live thread inside has the lock, took it last, and has not been inside for long. -/
  own : ∀ t since, s.Live pid t → s.pc t = .inside since →
    s.lock = pid t ∧ s.takenAt = since ∧ s.clock < since + STUCK_LIMIT
  one : ∀ t t', s.Inside pid t → s.Inside pid t' → t = t'

/-- **The lock stayed where it was while it was watched**: a thread that steals from a holder it
watched for too long finds the lock taken for the last time before its watch began. -/
def Unmoved (s : Sys) (e : Event) : Prop :=
  ∀ t since, e = .step t → s.Live pid t → s.pc t = .stealStuck s.lock since → s.takenAt ≤ since

end

section
variable {pid : Nat → Nat} {s : Sys}

theorem inv_init (proc : Nat → Proc) (clock : Nat) : Inv pid (.init proc clock) := by
  refine ⟨fun t => trivial, fun t since _ h => ?_, fun t t' h => ?_⟩
  · cases h
  · obtain ⟨-, since, h⟩ := h
    cases h

theorem Inv.goto (h : Inv pid s) {t : Nat} {c : Pc} (hc : ∀ x, c ≠ .inside x) (hok : c.Ok s) :
    Inv pid (s.goto t c) := by
  have hin : ∀ t' since, (s.goto t c).pc t' = .inside since → s.pc t' = .inside since := by
    intro t' since h'
    by_cases ht : t' = t
    · rw [ht, s.goto_self] at h'
      exact absurd h' (hc since)
    · rwa [s.goto_ne c ht] at h'
  refine ⟨fun t' => ?_, fun t' since hl h' => h.own t' since hl (hin t' since h'), ?_⟩
  · by_cases ht : t' = t
    · rw [ht, s.goto_self]
      exact hok.mono (fun _ => id) (Nat.le_refl _)
    · rw [s.goto_ne c ht]
      exact (h.ok t').mono (fun _ => id) (Nat.le_refl _)
  · rintro t₁ t₂ ⟨hl₁, x₁, h₁⟩ ⟨hl₂, x₂, h₂⟩
    exact h.one t₁ t₂ ⟨hl₁, x₁, hin t₁ x₁ h₁⟩ ⟨hl₂, x₂, hin t₂ x₂ h₂⟩

/-- A thread that takes the lock while no live thread is inside. -/
theorem Inv.take (h : Inv pid s) {t : Nat} (hno : ∀ t', ¬ s.Inside pid t') :
    Inv pid (s.take t (pid t)) := by
  have hin : ∀ t' since, s.Live pid t' → (s.take t (pid t)).pc t' = .inside since →
      t' = t ∧ since = s.clock := by
    intro t' since hl h'
    by_cases ht : t' = t
    · rw [ht, s.take_self] at h'
      exact ⟨ht, (Pc.inside.inj h').symm⟩
    · rw [s.take_ne _ ht] at h'
      exact absurd ⟨hl, since, h'⟩ (hno t')
  refine ⟨fun t' => ?_, fun t' since hl h' => ?_, ?_⟩
  · by_cases ht : t' = t
    · rw [ht, s.take_self]
      trivial
    · rw [s.take_ne _ ht]
      exact (h.ok t').mono (fun _ => id) (Nat.le_refl _)
  · obtain ⟨rfl, rfl⟩ := hin t' since hl h'
    exact ⟨rfl, rfl, Nat.lt_add_of_pos_right (by decide)⟩
  · rintro t₁ t₂ ⟨hl₁, x₁, h₁⟩ ⟨hl₂, x₂, h₂⟩
    rw [(hin t₁ x₁ hl₁ h₁).1, (hin t₂ x₂ hl₂ h₂).1]

/-- An exchange that succeeds finds no live thread inside. -/
theorem Inv.no_inside (h : Inv pid s) (hpid : ∀ t, pid t ≠ 0) {t : Nat} (ht : Takes s (s.pc t))
    (hun : ∀ since, s.pc t = .stealStuck s.lock since → s.takenAt ≤ since) (t' : Nat) :
    ¬ s.Inside pid t' := by
  rintro ⟨hl, since', h'⟩
  obtain ⟨hlock, htaken, hbrief⟩ := h.own t' since' hl h'
  have hok := h.ok t
  generalize hc : s.pc t = c at ht hok
  cases ht with
  | free n w h0 => exact hpid t' (hlock.symm.trans h0)
  | dead w =>
    rcases hok with hgone | h0
    · rw [hlock, show s.proc (pid t') = .live from hl] at hgone
      cases hgone
    · exact hpid t' (hlock.symm.trans h0)
  | stuck since =>
    have hle : s.takenAt ≤ since := hun since hc
    have hlong : since + STUCK_LIMIT ≤ s.clock := hok
    omega

/-- A process that ends, or whose PID goes. -/
theorem Inv.proc (h : Inv pid s) {p : Nat} {x : Proc} (hx : x ≠ .live) (hgone : s.proc p ≠ .gone) :
    Inv pid { s with proc := update s.proc p x } := by
  have hlive : ∀ t, Sys.Live pid { s with proc := update s.proc p x } t →
      s.Live pid t := by
    intro t hl
    by_cases hp : pid t = p
    · simp only [Sys.Live, hp, update_self] at hl
      exact absurd hl hx
    · simpa only [Sys.Live, update_of_ne hp] using hl
  refine ⟨fun t => Pc.Ok.mono (s := s) (fun q hq => ?_) (Nat.le_refl _) (h.ok t),
    fun t since hl => h.own t since (hlive t hl), ?_⟩
  · have hne : q ≠ p := by
      rintro rfl
      exact hgone hq
    simpa only [update_of_ne hne] using hq
  · rintro t₁ t₂ ⟨hl₁, x₁, h₁⟩ ⟨hl₂, x₂, h₂⟩
    exact h.one t₁ t₂ ⟨hlive t₁ hl₁, x₁, h₁⟩ ⟨hlive t₂ hl₂, x₂, h₂⟩

theorem Inv.release (h : Inv pid s) {t since : Nat} (hl : s.Live pid t)
    (ht : s.pc t = .inside since) : Inv pid (release s t) := by
  have hgoto : Inv pid (s.goto t .idle) := h.goto (by simp) trivial
  have hno : ∀ t', ¬ (s.goto t .idle).Inside pid t' := by
    rintro t' ⟨hl', x, h'⟩
    by_cases htt : t' = t
    · rw [htt, s.goto_self] at h'
      cases h'
    · rw [s.goto_ne _ htt] at h'
      exact htt (h.one t' t ⟨hl', x, h'⟩ ⟨hl, since, ht⟩)
  exact ⟨fun t' => (hgoto.ok t').mono (fun _ => id) (Nat.le_refl _),
    fun t' x hl' h' => absurd ⟨hl', x, h'⟩ (hno t'), fun t₁ t₂ h₁ => absurd h₁ (hno t₁)⟩

/-- Time that passes while every critical section is short. -/
theorem Inv.tick (h : Inv pid s) {d : Nat} (hb : Brief pid s (.tick d)) :
    Inv pid { s with clock := s.clock + d } := by
  refine ⟨fun t => Pc.Ok.mono (s := s) (fun _ => id) (Nat.le_add_right _ _) (h.ok t),
    fun t since hl ht => ?_, h.one⟩
  obtain ⟨h1, h2, -⟩ := h.own t since hl ht
  exact ⟨h1, h2, hb d rfl t since hl ht⟩

/-- **What every event keeps.** -/
theorem Inv.exec (hpid : ∀ t, pid t ≠ 0) (h : Inv pid s) {e : Event} (hb : Brief pid s e)
    (hu : Unmoved pid s e) : Inv pid (exec pid s e) := by
  cases e with
  | acquire t =>
    rw [Shmlock.exec]
    split
    exacts [h.goto (by simp) trivial, h]
  | step t =>
    rw [Shmlock.exec]
    split
    · rename_i hl
      rcases acquire_cases s t (pid t) (s.pc t) with he | ⟨c, he, hc, hok⟩ | ⟨htakes, he⟩
      · rwa [he]
      · rw [he]
        exact h.goto hc hok
      · rw [he]
        exact h.take (h.no_inside hpid htakes fun since => hu t since rfl hl)
    · exact h
  | release t =>
    rw [Shmlock.exec]
    split
    · rename_i hl
      split
      · rename_i since ht
        exact h.release hl ht
      · exact h
    · exact h
  | die p =>
    rw [Shmlock.exec]
    split
    · rename_i hp
      exact h.proc (by simp) (by simp [hp])
    · exact h
  | reap p =>
    rw [Shmlock.exec]
    split
    · rename_i hp
      exact h.proc (by simp) (by simp [hp])
    · exact h
  | tick d => exact h.tick hb

end

/-- **The lock excludes, where it stayed while it was watched.** -/
theorem excludes {pid : Nat → Nat} (hpid : ∀ t, pid t ≠ 0) {proc : Nat → Proc} {clock : Nat}
    {es : List Event}
    (hes : Along (exec pid) (fun s e => Brief pid s e ∧ Unmoved pid s e) (.init proc clock) es)
    {t t' : Nat} (h : (runs (exec pid) (.init proc clock) es).Inside pid t)
    (h' : (runs (exec pid) (.init proc clock) es).Inside pid t') : t = t' :=
  (hes.inv (fun _ _ hc hs => hs.exec hpid hc.1 hc.2) (inv_init proc clock)).one t t' h h'

/-- Thread `1` waits while thread `0` is inside, and enters when it has left. -/
theorem excludes_handover : (runs (exec Nat.succ) (.init (fun _ => .live) 0)
      [.acquire 0, .step 0, .acquire 1, .step 1, .release 0, .step 1]).Inside Nat.succ 1 ∧
    ¬ (runs (exec Nat.succ) (.init (fun _ => .live) 0)
      [.acquire 0, .step 0, .acquire 1, .step 1, .release 0, .step 1]).Inside Nat.succ 0 := by
  have hin : (runs (exec Nat.succ) (.init (fun _ => .live) 0)
      [.acquire 0, .step 0, .acquire 1, .step 1, .release 0, .step 1]).Inside Nat.succ 1 :=
    ⟨rfl, 0, by decide⟩
  refine ⟨hin, fun hno => ?_⟩
  have heq : (0 : Nat) = 1 := by
    refine excludes (fun t => Nat.succ_ne_zero t) ?_ hno hin
    refine (along_brief _ (by simp)).and ⟨?_, ?_, ?_, ?_, ?_, ?_, trivial⟩
    all_goals
      intro t since ht _ hpc
      cases ht
    all_goals cases hpc
  cases heq

end Askr.Shmlock
