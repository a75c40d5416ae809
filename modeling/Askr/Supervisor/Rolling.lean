import Askr.Supervisor.Loop
import Mathlib.Logic.Function.Basic

/-!
# A rolling reload leaves a worker accepting

Without the canary, a reload sets the cursor to 0 and sends `SIGTERM` to the first worker. When that
one has exited, the loop forks its successor and goes on with the next. So one worker at a time is
missing, if one reload is under way at a time.

Nothing sees to that. A reload that begins while a worker drains sends `SIGTERM` to another one, and
with two web workers none is left that accepts (`none_accepting`). One is left as long as no reload
begins before the worker that was rolled last has its successor (`worker_accepting`).
-/

namespace Askr.Supervisor

open Conc Conc.Prog Function Nat List

variable (cfg : Config)

/-- A web worker runs that has not been sent `SIGTERM`. -/
def Accepting (s : State) : Prop := ∃ w ∈ s.live, w.slot < cfg.web ∧ w.pid ∉ s.signalled

instance (s : State) : Decidable (Accepting cfg s) :=
  inferInstanceAs (Decidable (∃ w ∈ s.live, w.slot < cfg.web ∧ w.pid ∉ s.signalled))

/-- Workers exit only when they were sent `SIGTERM`, a worker can be forked at any time, the master
neither shuts down nor gives up, and it recycles no worker for its memory. -/
def Orderly (s s' : State) : Prop :=
  (∀ w ∈ s.live, w ∈ s'.live ∨ w.pid ∈ s.signalled) ∧
    s'.forkFails = false ∧ s'.shutdown = false ∧ s'.gaveUp = false ∧ s'.memRecycleCount = 0

instance (s s' : State) : Decidable (Orderly s s') := inferInstanceAs (Decidable (_ ∧ _))

/-- No reload begins before the one before it is through with a worker: no thread is in
`begin_reload`, the loop is not busy with a worker that has exited, and no worker that was sent
`SIGTERM` is still there. -/
def Separate (s s' : State) : Prop :=
  s'.began ≠ s.began → s.starting = [] ∧ s.reaping = false ∧ s.zombies = [] ∧
    ∀ w ∈ s.live, w.pid ∉ s.signalled

instance (s s' : State) : Decidable (Separate s s') := inferInstanceAs (Decidable (_ → _))

/-! ## The fleet -/

/-- The part of the state that says which workers there are. -/
structure Fleet where
  children : Nat → Nat
  owner : Nat → Worker
  live : List Worker
  zombies : List (Nat × Bool)
  nextPid : Nat
  signalled : List Nat
  starting : List (Nat × Nat)
  reaping : Bool
  shutdown : Bool
  gaveUp : Bool
  forkFails : Bool
  canary : Bool
  quarantined : Nat → Bool
  recycled : Nat

def State.fleet (s : State) : Fleet where
  children := s.children
  owner := s.owner
  live := s.live
  zombies := s.zombies
  nextPid := s.nextPid
  signalled := s.signalled
  starting := s.starting
  reaping := s.reaping
  shutdown := s.shutdown
  gaveUp := s.gaveUp
  forkFails := s.forkFails
  canary := s.canaryActive
  quarantined := s.quarantined
  recycled := s.memRecycleCount

namespace Fleet

variable (f : Fleet)

/-- The slot has a worker on record that runs and has not been sent `SIGTERM`. -/
def Running (j : Nat) : Prop :=
  f.owner j ∈ f.live ∧ (f.owner j).pid ∉ f.signalled ∧ f.children j = (f.owner j).pid

/-- Every worker that runs is the last one of its slot, and ids tell workers apart. -/
structure Staffed : Prop where
  procs : Procs f.live f.zombies f.nextPid
  slot : ∀ i < cfg.workers, (f.owner i).slot = i
  pid : ∀ i < cfg.workers, 0 < (f.owner i).pid ∧ (f.owner i).pid < f.nextPid
  distinct : ∀ i < cfg.workers, ∀ j < cfg.workers, (f.owner i).pid = (f.owner j).pid → i = j
  owned : ∀ w ∈ f.live, w.slot < cfg.workers ∧ w = f.owner w.slot
  known : ∀ pid ∈ f.signalled, pid < f.nextPid

/-- Nothing keeps the loop from forking workers. -/
structure Open : Prop where
  shutdown : f.shutdown = false
  gaveUp : f.gaveUp = false
  forkFails : f.forkFails = false
  canary : f.canary = false
  quarantined : ∀ i, f.quarantined i = false
  recycled : f.recycled = 0

/-- All workers run. -/
structure Calm : Prop where
  all : ∀ j < cfg.workers, f.Running j
  zombies : f.zombies = []

/-- All but one run, and that one was sent `SIGTERM`. -/
structure Due (i : Nat) : Prop where
  lt : i < cfg.workers
  others : ∀ j < cfg.workers, j ≠ i → f.Running j
  seat : f.children i = (f.owner i).pid
  signalled : (f.owner i).pid ∈ f.signalled
  gone : (f.owner i ∈ f.live ∧ f.zombies = []) ∨
    (f.owner i ∉ f.live ∧ ∃ failed, f.zombies = [((f.owner i).pid, failed)])

/-- All but one run, and the loop is busy with that one. -/
structure Missing (i : Nat) : Prop where
  lt : i < cfg.workers
  others : ∀ j < cfg.workers, j ≠ i → f.Running j
  clean : ∀ w ∈ f.live, w.pid ∉ f.signalled
  zombies : f.zombies = []

/-- A reload is in one place at a time: with the thread that begins it, with a worker that was sent
`SIGTERM`, or with the loop. -/
structure Inv : Prop where
  staffed : f.Staffed cfg
  open_ : f.Open
  phase : (f.Calm cfg ∧ (f.starting = [] ∨ f.reaping = false) ∧ f.starting.length ≤ 1) ∨
    (∃ i, f.Due cfg i ∧ f.starting = [] ∧ f.reaping = false) ∨
    ∃ i, f.Missing cfg i ∧ f.starting = [] ∧ f.reaping = true

/-- The loop has reaped the worker `pid` of the slot and is about to fill it. -/
structure Busy (i pid : Nat) : Prop where
  inv : f.Inv cfg
  missing : f.Missing cfg i
  reaping : f.reaping = true
  others : ∀ j < cfg.workers, j ≠ i → f.children j ≠ pid

/-- Nobody is in the slot. -/
def Vacant (i pid : Nat) : Prop :=
  f.Busy cfg i pid ∧ pid < f.nextPid ∧ ∀ w ∈ f.live, w.slot ≠ i

/-- The loop has filled the slot, and the worker `pid` is on record nowhere. -/
structure Refilled (pid : Nat) : Prop where
  inv : f.Inv cfg
  calm : f.Calm cfg
  reaping : f.reaping = true
  others : ∀ j < cfg.workers, f.children j ≠ pid

variable {cfg f}

/-- All but at most one run. -/
theorem Inv.all_but_one (h : f.Inv cfg) : ∃ i, ∀ j < cfg.workers, j ≠ i → f.Running j := by
  rcases h.phase with ⟨hcalm, -⟩ | ⟨i, hdue, -⟩ | ⟨i, hmissing, -⟩
  · exact ⟨0, fun j hj _ => hcalm.all j hj⟩
  · exact ⟨i, hdue.others⟩
  · exact ⟨i, hmissing.others⟩

theorem Calm.clean (h : f.Calm cfg) (hf : f.Staffed cfg) : ∀ w ∈ f.live, w.pid ∉ f.signalled := by
  intro w hw
  obtain ⟨hslot, heq⟩ := hf.owned w hw
  rw [heq]
  exact (h.all _ hslot).2.1

theorem Due.eq_owner {i : Nat} (h : f.Due cfg i) (hf : f.Staffed cfg) {w : Worker}
    (hw : w ∈ f.live) (hsig : w.pid ∈ f.signalled) : w = f.owner i := by
  obtain ⟨hslot, heq⟩ := hf.owned w hw
  by_cases hi : w.slot = i
  · rwa [hi] at heq
  · rw [heq] at hsig
    exact absurd hsig (h.others _ hslot hi).2.1

theorem Staffed.pid_ne (h : f.Staffed cfg) {i j : Nat} (hi : i < cfg.workers) (hj : j < cfg.workers)
    (hne : j ≠ i) : (f.owner j).pid ≠ (f.owner i).pid :=
  fun heq => hne (h.distinct j hj i hi heq)

/-- While a thread is in `begin_reload`, all workers run, and it is the only one. -/
theorem Inv.calm (h : f.Inv cfg) (hne : f.starting ≠ []) :
    f.Calm cfg ∧ f.reaping = false ∧ f.starting.length ≤ 1 := by
  rcases h.phase with ⟨hcalm, htoken, hone⟩ | ⟨i, -, hnil, -⟩ | ⟨i, -, hnil, -⟩
  · exact ⟨hcalm, htoken.resolve_left hne, hone⟩
  · exact absurd hnil hne
  · exact absurd hnil hne

/-- While the loop is busy with a worker, none that was sent `SIGTERM` runs. -/
theorem Inv.of_reaping (h : f.Inv cfg) (hr : f.reaping = true) :
    (∀ w ∈ f.live, w.pid ∉ f.signalled) ∧ f.zombies = [] ∧ f.starting = [] := by
  rcases h.phase with ⟨hcalm, htoken, -⟩ | ⟨i, -, -, hfalse⟩ | ⟨i, hmissing, hnil, -⟩
  · exact ⟨hcalm.clean h.staffed, hcalm.zombies, htoken.resolve_right (by simp [hr])⟩
  · rw [hr] at hfalse
    cases hfalse
  · exact ⟨hmissing.clean, hmissing.zombies, hnil⟩

/-- While a worker runs that was sent `SIGTERM`, no thread and not the loop has the reload. -/
theorem Inv.of_signalled (h : f.Inv cfg) {w : Worker} (hw : w ∈ f.live)
    (hsig : w.pid ∈ f.signalled) : f.starting = [] ∧ f.reaping = false := by
  constructor
  · by_contra hne
    exact (h.calm hne).1.clean h.staffed w hw hsig
  · by_contra hr
    exact (h.of_reaping (by simpa using hr)).1 w hw hsig

theorem Inv.children_pos (h : f.Inv cfg) (hr : f.reaping = false) {i : Nat} (hi : i < cfg.workers) :
    0 < f.children i := by
  have hseat : f.children i = (f.owner i).pid := by
    rcases h.phase with ⟨hcalm, -⟩ | ⟨k, hdue, -⟩ | ⟨k, -, -, htrue⟩
    · exact (hcalm.all i hi).2.2
    · by_cases hik : i = k
      · exact hik ▸ hdue.seat
      · exact (hdue.others i hi hik).2.2
    · rw [hr] at htrue
      cases htrue
  rw [hseat]
  exact (h.staffed.pid i hi).1

/-- A worker exits, which was sent `SIGTERM`. -/
theorem Inv.exit (h : f.Inv cfg) {w : Worker} (hw : w ∈ f.live) (hsig : w.pid ∈ f.signalled)
    (failed : Bool) : Inv cfg { f with
      live := f.live.filter (·.pid ≠ w.pid)
      zombies := f.zombies ++ [(w.pid, failed)] } := by
  have hf := h.staffed
  refine ⟨{ hf with
    procs := hf.procs.exit hw failed
    owned := fun v hv => hf.owned v (mem_filter.1 hv).1 }, { h.open_ with }, ?_⟩
  rcases h.phase with ⟨hcalm, -⟩ | ⟨i, hdue, htoken⟩ | ⟨i, hmissing, -⟩
  · exact absurd hsig (hcalm.clean hf w hw)
  · have heq := hdue.eq_owner hf hw hsig
    have hnil : f.zombies = [] := by
      rcases hdue.gone with ⟨-, hnil⟩ | ⟨hdead, -⟩
      · exact hnil
      · exact absurd (heq ▸ hw) hdead
    refine .inr (.inl ⟨i, ⟨hdue.lt, fun j hj hne => ?_, hdue.seat, hdue.signalled, .inr ⟨?_, ?_⟩⟩,
      htoken⟩)
    · obtain ⟨hlive, hrest⟩ := hdue.others j hj hne
      refine ⟨mem_filter.2 ⟨hlive, ?_⟩, hrest⟩
      rw [heq]
      simpa using hf.pid_ne hdue.lt hj hne
    · intro hmem
      have hmem := (mem_filter.1 hmem).2
      rw [heq] at hmem
      simp at hmem
    · exact ⟨failed, by rw [hnil, heq]; rfl⟩
  · exact absurd hsig (hmissing.clean w hw)

theorem Inv.begin (h : f.Inv cfg) (hstarting : f.starting = []) (hreaping : f.reaping = false)
    (hzombies : f.zombies = []) (hclean : ∀ w ∈ f.live, w.pid ∉ f.signalled) (x : Nat × Nat) :
    Inv cfg { f with starting := x :: f.starting } := by
  refine ⟨{ h.staffed with }, { h.open_ with }, .inl ?_⟩
  rcases h.phase with ⟨hcalm, -⟩ | ⟨i, hdue, -⟩ | ⟨i, -, -, htrue⟩
  · exact ⟨{ hcalm with }, .inr hreaping, by simp [hstarting]⟩
  · rcases hdue.gone with ⟨hlive, -⟩ | ⟨-, failed, heq⟩
    · exact absurd hdue.signalled (hclean _ hlive)
    · rw [heq] at hzombies
      cases hzombies
  · rw [hreaping] at htrue
    cases htrue

/-- A worker is sent `SIGTERM` while all run. -/
theorem Inv.send (h : f.Inv cfg) (hcalm : f.Calm cfg) {i : Nat} (hi : i < cfg.workers) :
    Inv cfg { f with
      signalled := f.children i :: f.signalled
      starting := []
      reaping := false } := by
  have hf := h.staffed
  have hseat : ∀ j < cfg.workers, f.children j = (f.owner j).pid := fun j hj => (hcalm.all j hj).2.2
  refine ⟨{ hf with known := fun pid hpid => ?_ }, { h.open_ with }, .inr (.inl ⟨i, ?_, rfl, rfl⟩)⟩
  · rcases mem_cons.1 hpid with rfl | hpid
    · exact hseat i hi ▸ (hf.pid i hi).2
    · exact hf.known pid hpid
  refine ⟨hi, fun j hj hne => ?_, hseat i hi, hseat i hi ▸ .head _, .inl ⟨(hcalm.all i hi).1,
    hcalm.zombies⟩⟩
  obtain ⟨hlive, hsig, -⟩ := hcalm.all j hj
  refine ⟨hlive, fun hmem => ?_, hseat j hj⟩
  rcases mem_cons.1 hmem with heq | hmem
  · exact hf.pid_ne hi hj hne (heq.trans (hseat i hi))
  · exact hsig hmem

/-- A thread returns from `begin_reload`, or the loop is through with a worker, while all run. -/
theorem Inv.rest (h : f.Inv cfg) (hcalm : f.Calm cfg) :
    Inv cfg { f with starting := [], reaping := false } :=
  ⟨{ h.staffed with }, { h.open_ with }, .inl ⟨{ hcalm with }, .inl rfl, Nat.zero_le _⟩⟩

/-- The loop gets to know that a worker has exited: it is the one that is due. -/
theorem Inv.reap (h : f.Inv cfg) {k pid : Nat} {failed : Bool}
    (hz : f.zombies[k]? = some (pid, failed)) : f.starting = [] ∧ ∃ i < cfg.workers,
      Vacant cfg { f with zombies := f.zombies.eraseIdx k, reaping := true } i pid ∧
      f.children i = pid := by
  have hf := h.staffed
  have hne : f.zombies ≠ [] := ne_nil_of_mem (mem_of_getElem? hz)
  rcases h.phase with ⟨hcalm, -⟩ | ⟨i, hdue, hnil, -⟩ | ⟨i, hmissing, -⟩
  · exact absurd hcalm.zombies hne
  · rcases hdue.gone with ⟨-, hz'⟩ | ⟨hdead, failed', hz'⟩
    · exact absurd hz' hne
    rw [hz'] at hz ⊢
    obtain ⟨rfl, heq⟩ : k = 0 ∧ (f.owner i).pid = pid := by
      cases k with
      | zero => exact ⟨rfl, congrArg Prod.fst (Option.some.inj hz)⟩
      | succ k => cases hz
    have hmissing : Missing cfg { f with zombies := [], reaping := true } i := by
      refine ⟨hdue.lt, hdue.others, fun w hw hsig => hdead ?_, rfl⟩
      rwa [← hdue.eq_owner hf hw hsig]
    have hprocs : Procs f.live [] f.nextPid :=
      { hf.procs with dead := fun z hz => by cases hz }
    refine ⟨hnil, i, hdue.lt, ⟨⟨⟨{ hf with procs := hprocs }, { h.open_ with },
      .inr (.inr ⟨i, hmissing, hnil, rfl⟩)⟩, hmissing, rfl, fun j hj hne => ?_⟩,
      heq ▸ (hf.pid i hdue.lt).2, fun w hw hslot => hdead ?_⟩, hdue.seat.trans heq⟩
    · rw [(hdue.others j hj hne).2.2, ← heq]
      exact hf.pid_ne hdue.lt hj hne
    · rwa [← hslot, ← (hf.owned w hw).2]
  · exact absurd hmissing.zombies hne

theorem Busy.clear {i pid : Nat} (h : f.Busy cfg i pid) :
    Busy cfg { f with children := update f.children i 0 } i pid := by
  have hother : ∀ {j}, j ≠ i → update f.children i 0 j = f.children j :=
    fun hj => update_of_ne hj _ _
  have hmissing : Missing cfg { f with children := update f.children i 0 } i := by
    refine ⟨h.missing.lt, fun j hj hne => ?_, h.missing.clean, h.missing.zombies⟩
    obtain ⟨hlive, hsig, hseat⟩ := h.missing.others j hj hne
    exact ⟨hlive, hsig, (hother hne).trans hseat⟩
  have hnil := (h.inv.of_reaping h.reaping).2.2
  exact ⟨⟨{ h.inv.staffed with }, { h.inv.open_ with }, .inr (.inr ⟨i, hmissing, hnil, h.reaping⟩)⟩,
    hmissing, h.reaping, fun j hj hne heq => h.others j hj hne ((hother hne).symm.trans heq)⟩

/-- A worker is forked for a slot that has none. -/
theorem Staffed.fork (h : f.Staffed cfg) {i : Nat} (hi : i < cfg.workers)
    (hempty : ∀ w ∈ f.live, w.slot ≠ i) {w : Worker} (hpid : w.pid = f.nextPid)
    (hslot : w.slot = i) : Staffed cfg { f with
      nextPid := f.nextPid + 1
      live := w :: f.live
      owner := update f.owner i w } := by
  have hother : ∀ {j}, j ≠ i → update f.owner i w j = f.owner j :=
    fun hj => update_of_ne hj _ _
  have hself : update f.owner i w i = w := update_self _ _ _
  have hfresh : ∀ j < cfg.workers, (f.owner j).pid ≠ w.pid :=
    fun j hj => hpid ▸ Nat.ne_of_lt (h.pid j hj).2
  refine ⟨h.procs.fork hpid, fun j hj => ?_, fun j hj => ?_, fun j hj k hk heq => ?_,
    fun v hv => ?_, fun pid hsig => lt_succ_of_lt (h.known pid hsig)⟩
  · rcases eq_or_ne j i with rfl | hne
    · exact (congrArg Worker.slot hself).trans hslot
    · exact (congrArg Worker.slot (hother hne)).trans (h.slot j hj)
  · dsimp only
    rcases eq_or_ne j i with rfl | hne
    · rw [hself, hpid]
      exact ⟨h.procs.pos, lt_succ_self _⟩
    · rw [hother hne]
      exact ⟨(h.pid j hj).1, lt_succ_of_lt (h.pid j hj).2⟩
  · dsimp only at heq
    rcases eq_or_ne j i with rfl | hne
    · rcases eq_or_ne k j with rfl | hne'
      · rfl
      · rw [hself, hother hne'] at heq
        exact absurd heq.symm (hfresh k hk)
    · rcases eq_or_ne k i with rfl | hne'
      · rw [hself, hother hne] at heq
        exact absurd heq (hfresh j hj)
      · rw [hother hne, hother hne'] at heq
        exact h.distinct j hj k hk heq
  · rcases mem_cons.1 hv with rfl | hv
    · rw [hslot]
      exact ⟨hi, hself.symm⟩
    · obtain ⟨hlt, heq⟩ := h.owned v hv
      exact ⟨hlt, heq.trans (hother (hempty v hv)).symm⟩

/-- A worker is forked for the slot of the one that has exited. -/
theorem Busy.fork {i pid : Nat} (h : f.Busy cfg i pid) (hempty : ∀ w ∈ f.live, w.slot ≠ i)
    {w : Worker} (hpid : w.pid = f.nextPid) (hslot : w.slot = i) : Busy cfg { f with
      nextPid := f.nextPid + 1
      live := w :: f.live
      owner := update f.owner i w } i pid := by
  have hmissing : Missing cfg { f with
      nextPid := f.nextPid + 1
      live := w :: f.live
      owner := update f.owner i w } i := by
    refine ⟨h.missing.lt, fun j hj hne => ?_, fun v hv => ?_, h.missing.zombies⟩
    · unfold Running
      dsimp only
      rw [update_of_ne hne]
      obtain ⟨hlive, hrest⟩ := h.missing.others j hj hne
      exact ⟨.tail _ hlive, hrest⟩
    · rcases mem_cons.1 hv with rfl | hv
      · exact fun hsig => Nat.lt_irrefl _ (hpid ▸ h.inv.staffed.known _ hsig)
      · exact h.missing.clean v hv
  have hnil := (h.inv.of_reaping h.reaping).2.2
  exact ⟨⟨h.inv.staffed.fork h.missing.lt hempty hpid hslot, { h.inv.open_ with },
    .inr (.inr ⟨i, hmissing, hnil, h.reaping⟩)⟩, hmissing, h.reaping, h.others⟩

theorem Busy.seat {i pid : Nat} (h : f.Busy cfg i pid) (hlive : f.owner i ∈ f.live)
    (hne : (f.owner i).pid ≠ pid) :
    Refilled cfg { f with children := update f.children i (f.owner i).pid } pid := by
  have hother : ∀ {j}, j ≠ i → update f.children i (f.owner i).pid j = f.children j :=
    fun hj => update_of_ne hj _ _
  have hself : update f.children i (f.owner i).pid i = (f.owner i).pid :=
    update_self _ _ _
  have hcalm : Calm cfg { f with children := update f.children i (f.owner i).pid } := by
    refine ⟨fun j hj => ?_, h.missing.zombies⟩
    rcases eq_or_ne j i with rfl | hji
    · exact ⟨hlive, h.missing.clean _ hlive, hself⟩
    · obtain ⟨hlive, hsig, hseat⟩ := h.missing.others j hj hji
      exact ⟨hlive, hsig, (hother hji).trans hseat⟩
  have hnil := (h.inv.of_reaping h.reaping).2.2
  refine ⟨⟨{ h.inv.staffed with }, { h.inv.open_ with }, .inl ⟨hcalm, .inl hnil, ?_⟩⟩, hcalm,
    h.reaping, fun j hj => ?_⟩
  · dsimp only
    rw [hnil]
    exact Nat.zero_le _
  · rcases eq_or_ne j i with rfl | hji
    · exact fun heq => hne (hself.symm.trans heq)
    · exact fun heq => h.others j hj hji ((hother hji).symm.trans heq)

end Fleet

namespace Rolling

/-! ## What the threads do to it -/

/-- The change is none of this part. -/
def SameFleet (s s' : State) : Prop := s'.fleet = s.fleet

/-- What a thread may do. It leaves a reload to the thread that begins it, and to the loop as long
as that is busy with a worker. -/
structure Move (u : Nat) (s s' : State) : Prop where
  inv : s'.fleet.Inv cfg
  others : ∀ x : Nat × Nat, x.1 ≠ u → (x ∈ s'.starting ↔ x ∈ s.starting)
  thread : (∃ x ∈ s.starting, x.1 ≠ u) → SameFleet s s'
  loop : u ≠ 0 → s'.children = s.children ∧ s'.reaping = s.reaping ∧
    (s.reaping = true → SameFleet s s')

structure LoopRely (s s' : State) : Prop where
  pre : s.fleet.Inv cfg
  inv : s'.fleet.Inv cfg
  children : s'.children = s.children
  reaping : s'.reaping = s.reaping
  same : s.reaping = true → SameFleet s s'

structure ThreadRely (u : Nat) (s s' : State) : Prop where
  pre : s.fleet.Inv cfg
  inv : s'.fleet.Inv cfg
  mine : ∀ n, (u, n) ∈ s'.starting ↔ (u, n) ∈ s.starting
  same : (∃ n, (u, n) ∈ s.starting) → SameFleet s s'

def Rely : Nat → State → State → Prop
  | 0 => LoopRely cfg
  | u + 1 => ThreadRely cfg (u + 1)

/-- What a thread does, in a run whose reloads are separate. -/
def Guarantee (u : Nat) (s s' : State) : Prop :=
  s.fleet.Inv cfg → Orderly s s' ∧ Separate s s' → Move cfg u s s'

/-- Between its calls, the loop is not busy with a worker, and another thread is not in
`begin_reload`. -/
def Between (t : Nat) (s : State) : Prop :=
  s.fleet.Inv cfg → (t = 0 → s.reaping = false) ∧ (t ≠ 0 → ∀ n, (t, n) ∉ s.starting)

variable {cfg : Config} {s s' s'' : State} {u : Nat}

theorem SameFleet.move (h : SameFleet s s') (hs : s.fleet.Inv cfg) (u : Nat) : Move cfg u s s' where
  inv := h ▸ hs
  others x _ := by rw [show s'.starting = s.starting from congrArg Fleet.starting h]
  thread _ := h
  loop _ := ⟨congrArg Fleet.children h, congrArg Fleet.reaping h, fun _ => h⟩

theorem SameFleet.guarantee {u : Nat} (h : SameFleet s s') : Guarantee cfg u s s' :=
  fun hs _ => h.move hs u

theorem LoopRely.trans (h : LoopRely cfg s s') (h' : LoopRely cfg s' s'') : LoopRely cfg s s'' where
  pre := h.pre
  inv := h'.inv
  children := h'.children.trans h.children
  reaping := h'.reaping.trans h.reaping
  same hr := (h'.same (h.reaping.trans hr)).trans (h.same hr)

theorem ThreadRely.trans (h : ThreadRely cfg u s s') (h' : ThreadRely cfg u s' s'') :
    ThreadRely cfg u s s'' where
  pre := h.pre
  inv := h'.inv
  mine n := (h'.mine n).trans (h.mine n)
  same := by
    rintro ⟨n, hn⟩
    exact (h'.same ⟨n, (h.mine n).2 hn⟩).trans (h.same ⟨n, hn⟩)

theorem Move.loopRely (h : Move cfg u s s') (hs : s.fleet.Inv cfg) (hu : u ≠ 0) :
    LoopRely cfg s s' :=
  ⟨hs, h.inv, (h.loop hu).1, (h.loop hu).2.1, (h.loop hu).2.2⟩

theorem Move.threadRely (h : Move cfg u s s') (hs : s.fleet.Inv cfg) {v : Nat} (hv : v ≠ u) :
    ThreadRely cfg v s s' :=
  ⟨hs, h.inv, fun n => h.others (v, n) hv, fun ⟨n, hn⟩ => h.thread ⟨(v, n), hn, hv⟩⟩

theorem Move.leaves (h : Move cfg u s s') (hs : s.fleet.Inv cfg) :
    Pool.Leaves (fun s => s.fleet.Inv cfg) (Between cfg) (Rely cfg) u s s' where
  inv := h.inv
  rely t hne := by
    cases t with
    | zero => exact h.loopRely hs hne.symm
    | succ t => exact h.threadRely hs hne
  between t hne hb _ := by
    obtain ⟨hloop, hthread⟩ := hb hs
    refine ⟨fun ht => ?_, fun ht n hn => hthread ht n ((h.others (t, n) hne).1 hn)⟩
    exact (h.loop fun hu => hne (ht.trans hu.symm)).2.1.trans (hloop ht)

/-- A program goes no further in a run that has left the invariant. -/
theorem valid_of_not {α : Type} {p : Prog State α} {R G : State → State → Prop}
    {Q : α → State → Prop} (hR : ∀ s s', R s s' → s.fleet.Inv cfg) (hs : ¬ s.fleet.Inv cfg)
    (hQ : ∀ a s, ¬ s.fleet.Inv cfg → Q a s) : p.Valid R G Q s := by
  cases p with
  | ret a => exact hQ a s hs
  | act u n => exact fun s' h => absurd (hR s s' h) hs

theorem Move.of_alone (hinv : s'.fleet.Inv cfg) (hall : ∀ x ∈ s.starting, x.1 = u)
    (hall' : ∀ x ∈ s'.starting, x.1 = u)
    (hloop : u ≠ 0 → s.reaping = false ∧ s'.reaping = false ∧ s'.children = s.children) :
    Move cfg u s s' where
  inv := hinv
  others x hx := ⟨fun h => absurd (hall' x h) hx, fun h => absurd (hall x h) hx⟩
  thread := by
    rintro ⟨x, hx, hne⟩
    exact absurd (hall x hx) hne
  loop hu := by
    obtain ⟨hr, hr', hc⟩ := hloop hu
    refine ⟨hc, hr'.trans hr.symm, fun h => ?_⟩
    rw [hr] at h
    cases h

theorem Move.of_reaping (hs : s.fleet.Inv cfg) (hr : s.reaping = true) (hinv : s'.fleet.Inv cfg)
    (hstarting : s'.starting = s.starting) : Move cfg 0 s s' := by
  have hnil : s.starting = [] := (hs.of_reaping hr).2.2
  refine .of_alone hinv (fun x hx => ?_) (fun x hx => ?_) fun h => absurd rfl h
  · rw [hnil] at hx
    cases hx
  · rw [hstarting, hnil] at hx
    cases hx

/-! ## The next worker -/

/-- The thread `u` has the reload from the fleet `f` on: nobody else touches it, and `finish` is the
end of it. -/
structure Hold (cfg : Config) (R : State → State → Prop) (finish : State → State) (u : Nat)
    (f : Fleet) : Prop where
  inv : f.Inv cfg
  calm : f.Calm cfg
  fix : ∀ s s', R s s' → s.fleet = f → s'.fleet = f
  finish : ∀ s : State, s.starting = f.starting → s.reaping = f.reaping →
    (finish s).fleet = { s.fleet with starting := [], reaping := false }
  alone : ∀ x ∈ f.starting, x.1 = u
  loop : u ≠ 0 → f.reaping = false

section
variable {R : State → State → Prop} {finish : State → State} {f : Fleet}

/-- What is left when the thread is through with it. -/
def Passed (f : Fleet) (s : State) : Prop :=
  s.children = f.children ∧ s.starting = [] ∧ s.reaping = false

/-- The thread is through with it, and leaves the invariant. -/
theorem Hold.passes (h : Hold cfg R finish u f) (hs : s.fleet = f)
    (hs' : s'.starting = f.starting ∧ s'.reaping = f.reaping ∧ s'.children = f.children)
    (hinv : { s'.fleet with starting := [], reaping := false : Fleet }.Inv cfg) :
    Move cfg u s (finish s') ∧ Passed f (finish s') := by
  subst hs
  obtain ⟨hst, hr, hc⟩ := hs'
  have hfinish := h.finish s' hst hr
  have hc' := (congrArg Fleet.children hfinish).trans hc
  have hst' := congrArg Fleet.starting hfinish
  have hr' := congrArg Fleet.reaping hfinish
  refine ⟨.of_alone (hfinish ▸ hinv) h.alone (fun x hx => ?_) fun hu => ⟨h.loop hu, hr', hc'⟩,
    hc', hst', hr'⟩
  rw [show (finish s').starting = [] from hst'] at hx
  cases hx

theorem Hold.rest (h : Hold cfg R finish u f) (hs : s.fleet = f) (c : Nat) :
    Move cfg u s (finish { s with reloadCursor := c }) ∧
      Passed f (finish { s with reloadCursor := c }) := by
  subst hs
  exact h.passes rfl ⟨rfl, rfl, rfl⟩ (h.inv.rest h.calm)

theorem Hold.send (h : Hold cfg R finish u f) (hs : s.fleet = f) {i : Nat} (hi : i < cfg.workers) :
    Move cfg u s (finish (s.roll i (f.children i))) ∧
      Passed f (finish (s.roll i (f.children i))) := by
  subst hs
  exact h.passes rfl ⟨rfl, rfl, rfl⟩ (h.inv.send h.calm hi)

/-- A worker is sent `SIGTERM` while all run, or none is left. -/
theorem valid_rollNext (h : Hold cfg R finish u f) (n : Nat) (hs : s.fleet = f) :
    (rollNext cfg finish n).Valid R (Guarantee cfg u) (fun _ s => Passed f s) s := by
  induction n generalizing s with
  | zero =>
    refine valid_store fun s₁ hR => ?_
    obtain ⟨hmove, hpassed⟩ := h.rest (h.fix s s₁ hR hs) s₁.reloadCursor
    exact ⟨fun _ _ => hmove, hpassed⟩
  | succ n ih =>
    refine valid_atom fun s₁ hR => ?_
    have h₁ : s₁.fleet = f := h.fix s s₁ hR hs
    dsimp only
    split
    · obtain ⟨hmove, hpassed⟩ := h.rest h₁ ((s₁.reloadCursor + 1) % 18446744073709551616)
      exact ⟨fun _ _ => hmove, hpassed⟩
    next hi =>
    refine ⟨SameFleet.guarantee rfl, valid_read (fun _ => SameFleet.guarantee rfl) fun s₂ hR => ?_⟩
    have h₂ : s₂.fleet = f := h.fix _ s₂ hR h₁
    split
    · refine valid_store fun s₃ hR => ?_
      rw [show s₂.children = f.children from congrArg Fleet.children h₂]
      obtain ⟨hmove, hpassed⟩ := h.send (h.fix s₂ s₃ hR h₂) (Nat.lt_of_not_le hi)
      exact ⟨fun _ _ => hmove, hpassed⟩
    · exact ih h₂

end

/-! ## The loop -/

/-- The loop is not busy with a worker. -/
def Idle (cfg : Config) (s : State) : Prop := s.fleet.Inv cfg → s.reaping = false

/-- The loop is through with the worker `pid`. -/
def Through (cfg : Config) (pid : Nat) (s : State) : Prop :=
  s.fleet.Inv cfg → s.reaping = false ∧ ∀ j < cfg.workers, s.children j ≠ pid

theorem LoopRely.keeps {F : Fleet → Prop} (h : LoopRely cfg s s') (hr : s.reaping = true)
    (hF : F s.fleet) : F s'.fleet := (h.same hr).symm ▸ hF

variable {i pid : Nat}

theorem LoopRely.vacant (h : LoopRely cfg s s') (hs : s.fleet.Vacant cfg i pid) :
    s'.fleet.Vacant cfg i pid := h.keeps (F := fun f => f.Vacant cfg i pid) hs.1.reaping hs

theorem LoopRely.refilled {pid : Nat} (h : LoopRely cfg s s') (hs : s.fleet.Refilled cfg pid) :
    s'.fleet.Refilled cfg pid := h.keeps (F := fun f => f.Refilled cfg pid) hs.reaping hs

theorem LoopRely.idle (h : LoopRely cfg s s') (hs : Idle cfg s) : Idle cfg s' :=
  fun _ => h.reaping.trans (hs h.pre)

theorem LoopRely.through {pid : Nat} (h : LoopRely cfg s s') (hs : Through cfg pid s) :
    Through cfg pid s' := by
  intro _
  rw [h.reaping, h.children]
  exact hs h.pre

theorem hold_loop {pid : Nat} (h : s.fleet.Refilled cfg pid) :
    Hold cfg (LoopRely cfg) State.rolled 0 s.fleet where
  inv := h.inv
  calm := h.calm
  fix s₁ s₂ hR heq := (hR.same (show s₁.fleet.reaping = true from heq ▸ h.reaping)).trans heq
  finish s₁ hst _ := by
    rw [(h.inv.of_reaping h.reaping).2.2] at hst
    unfold State.rolled State.fleet
    dsimp only
    rw [hst]
  alone x hx := by
    rw [(h.inv.of_reaping h.reaping).2.2] at hx
    cases hx
  loop h := absurd rfl h

/-- The slot of a worker that has exited gets a new one. -/
theorem valid_spawnSlot (hs : s.fleet.Vacant cfg i pid) :
    (spawnSlot cfg i).Valid (LoopRely cfg) (Guarantee cfg 0)
      (fun _ s => s.fleet.Refilled cfg pid) s := by
  have hset : ∀ f (s : State), SameFleet s (s.setStat cfg i f) := fun _ _ => rfl
  have hvacant : ∀ {f} {s s' : State}, LoopRely cfg s s' → s.fleet.Vacant cfg i pid →
      (s'.setStat cfg i f).fleet.Vacant cfg i pid := fun hR hs => hR.vacant hs
  refine valid_store fun s₁ hR₁ => ⟨(hset _ s₁).guarantee, ?_⟩
  refine valid_store fun s₂ hR₂ => ⟨(hset _ s₂).guarantee, ?_⟩
  refine valid_store fun s₃ hR₃ => ⟨(hset _ s₃).guarantee, valid_atom fun s₄ hR => ?_⟩
  obtain ⟨hbusy, hpid, hempty⟩ := hR.vacant (hvacant hR₃ (hvacant hR₂ (hvacant hR₁ hs)))
  split
  next hfails => exact absurd (hfails.symm.trans hbusy.inv.open_.forkFails) (by simp)
  next =>
  have hfork : (s₄.fork cfg i).fleet.Busy cfg i pid := hbusy.fork hempty rfl rfl
  refine ⟨fun hinv _ => .of_reaping hinv hbusy.reaping hfork.inv rfl, valid_store fun s₅ hR => ?_⟩
  obtain ⟨h₅, howner, hlive⟩ := hR.keeps (F := fun f =>
    f.Busy cfg i pid ∧ f.owner i = s₄.child cfg i ∧ s₄.child cfg i ∈ f.live) hfork.reaping
    ⟨hfork, update_self _ _ _, .head _⟩
  have hseat : (s₅.seat i s₄.nextPid).fleet.Refilled cfg pid := by
    have h := h₅.seat (howner ▸ hlive) (howner ▸ (Nat.ne_of_lt hpid).symm)
    rwa [howner] at h
  exact ⟨fun hinv _ => .of_reaping hinv h₅.reaping hseat.inv rfl, hseat⟩

theorem valid_reapSlot (failed : Bool) (hs : s.fleet.Vacant cfg i pid) :
    (reapSlot cfg i failed).Valid (LoopRely cfg) (Guarantee cfg 0)
      (fun _ s => Through cfg pid s) s := by
  have hsame : ∀ {s s' : State}, SameFleet s s' → Guarantee cfg 0 s s' := SameFleet.guarantee
  unfold reapSlot
  generalize range MAX_WORKERS = is
  refine valid_store fun s₁ hR => ?_
  have h₁ := hR.vacant hs
  have hclear := h₁.1.clear
  refine ⟨fun hinv _ => .of_reaping hinv h₁.1.reaping hclear.inv rfl, ?_⟩
  refine valid_read (fun _ => hsame rfl) fun s₂ hR => ?_
  have h₂ := hR.vacant ⟨hclear, h₁.2⟩
  split
  next hstop => exact absurd (hstop.symm.trans h₂.1.inv.open_.shutdown) (by simp)
  next =>
  refine valid_atom fun s₃ hR => ?_
  have h₃ := hR.vacant h₂
  obtain ⟨window, count, hexited⟩ := exited_cases s₃ i failed
  rw [hexited]
  split
  · refine ⟨fun _ h => absurd h.1.2.2.2.1 (by simp), valid_of_not (fun _ _ h => h.pre) ?_ ?_⟩
    · exact fun hinv => absurd hinv.open_.gaveUp (by simp [State.fleet])
    · exact fun _ _ hnot hinv => absurd hinv hnot
  refine ⟨hsame rfl, valid_read (fun _ => hsame rfl) fun s₄ hR => ?_⟩
  have h₄ : s₄.fleet.Vacant cfg i pid := hR.vacant h₃
  split
  next hq => exact absurd (hq.symm.trans (h₄.1.inv.open_.quarantined i)) (by simp)
  next =>
  refine Valid.bind ((valid_spawnSlot h₄).post fun _ s₅ h₅ => valid_atom fun s₆ hR => ?_)
  have h₆ := hR.refilled h₅
  have hhold := hold_loop h₆
  split
  · refine ⟨hsame rfl, Valid.map _ (Valid.post (fun _ s₇ h₇ _ => ?_) (valid_rollNext hhold _ rfl))⟩
    refine ⟨h₇.2.2, fun j hj => ?_⟩
    rw [h₇.1]
    exact h₆.others j hj
  · refine ⟨fun hinv _ => .of_reaping hinv h₆.reaping ?_ rfl, fun _ => ⟨rfl, h₆.others⟩⟩
    exact (hhold.rest rfl s₆.reloadCursor).1.inv

theorem valid_reapSlots_through {pid : Nat} (failed : Bool) (is : List Nat)
    (his : ∀ j ∈ is, j < cfg.workers) (hs : Through cfg pid s) :
    (reapSlots cfg pid failed is).Valid (LoopRely cfg) (Guarantee cfg 0)
      (fun _ s => Idle cfg s) s := by
  induction is generalizing s with
  | nil =>
    refine valid_store fun s₁ hR => ⟨SameFleet.guarantee ?_, fun _ => rfl⟩
    have hr : s₁.reaping = false := (hR.through hs hR.inv).1
    unfold SameFleet State.fleet
    rw [hr]
  | cons j js ih =>
    refine valid_read (fun _ => SameFleet.guarantee rfl) fun s₁ hR => ?_
    have h₁ := hR.through hs
    rw [if_neg ((h₁ hR.inv).2 j (his j (.head _)))]
    exact ih (fun j hj => his j (.tail _ hj)) h₁

theorem valid_reapSlots (failed : Bool) (is : List Nat)
    (his : ∀ j ∈ is, j < cfg.workers) (hi : i ∈ is) (hs : s.fleet.Vacant cfg i pid)
    (hseat : s.children i = pid) :
    (reapSlots cfg pid failed is).Valid (LoopRely cfg) (Guarantee cfg 0)
      (fun _ s => Idle cfg s) s := by
  induction is generalizing s with
  | nil => cases hi
  | cons j js ih =>
    refine valid_read (fun _ => SameFleet.guarantee rfl) fun s₁ hR => ?_
    have h₁ := hR.vacant hs
    have hseat₁ : s₁.children i = pid := by rw [hR.children, hseat]
    have hjs : ∀ k ∈ js, k < cfg.workers := fun k hk => his k (.tail _ hk)
    rcases eq_or_ne j i with rfl | hne
    · rw [if_pos hseat₁]
      refine Valid.bind ((valid_reapSlot failed h₁).post fun goesOn s₂ h₂ => ?_)
      cases goesOn with
      | true => exact valid_reapSlots_through failed js hjs h₂
      | false => exact fun hinv => (h₂ hinv).1
    · have hj : s₁.children j ≠ pid := h₁.1.others j (his j (.head _)) hne
      rw [if_neg hj]
      exact ih hjs ((mem_cons.1 hi).resolve_left hne.symm) h₁ hseat₁

theorem valid_reap (k : Nat) (hs : Idle cfg s) :
    (reap cfg k).Valid (LoopRely cfg) (Guarantee cfg 0) (fun _ s => Idle cfg s) s := by
  refine valid_atom fun s₁ hR => ?_
  split
  · exact ⟨SameFleet.guarantee rfl, hR.idle hs⟩
  next pid failed hz =>
  obtain ⟨hnil, i, hi, hvacant, hseat⟩ := hR.inv.reap hz
  have hall : ∀ x ∈ s₁.starting, x.1 = 0 := by
    rw [show s₁.starting = [] from hnil]
    simp
  refine ⟨fun _ _ => .of_alone hvacant.1.inv hall hall fun h => absurd rfl h, ?_⟩
  exact valid_reapSlots failed _ (fun j hj => mem_range.1 hj) (mem_range.2 hi) hvacant
    hseat

theorem valid_fillSlots (is : List Nat) (his : ∀ j ∈ is, j < cfg.workers) (hs : Idle cfg s) :
    (fillSlots cfg is).Valid (LoopRely cfg) (Guarantee cfg 0) (fun _ s => Idle cfg s) s := by
  induction is generalizing s with
  | nil => exact hs
  | cons j js ih =>
    refine valid_read (fun _ => SameFleet.guarantee rfl) fun s₁ hR => ?_
    have h₁ := hR.idle hs
    have hpos : 0 < s₁.children j := hR.inv.children_pos (h₁ hR.inv) (his j (.head _))
    rw [if_neg (Nat.ne_of_gt hpos)]
    exact ih (fun j hj => his j (.tail _ hj)) h₁

theorem valid_fill (hs : Idle cfg s) :
    (fill cfg).Valid (LoopRely cfg) (Guarantee cfg 0) (fun _ s => Idle cfg s) s := by
  refine valid_read (fun _ => SameFleet.guarantee rfl) fun s₁ hR => ?_
  split
  · exact hR.idle hs
  · exact valid_fillSlots _ (fun j hj => Nat.lt_of_lt_of_le (mem_range.1 hj) cfg.web_le)
      (hR.idle hs)

theorem valid_canaryGate (hs : Idle cfg s) :
    (canaryGate cfg).Valid (LoopRely cfg) (Guarantee cfg 0) (fun _ s => Idle cfg s) s := by
  refine Valid.bind (valid_atom fun s₁ hR => ?_)
  have hnone : (!s₁.canaryActive) = true := congrArg (!·) hR.inv.open_.canary
  rw [if_pos hnone]
  refine ⟨SameFleet.guarantee rfl, valid_atom fun s₂ hR₂ => ?_⟩
  have hnone₂ : (!s₂.canaryActive) = true := congrArg (!·) hR₂.inv.open_.canary
  rw [if_pos hnone₂]
  exact ⟨SameFleet.guarantee rfl, hR₂.idle (hR.idle hs)⟩

theorem valid_recycleOverRss (hs : Idle cfg s) :
    (recycleOverRss cfg).Valid (LoopRely cfg) (Guarantee cfg 0) (fun _ s => Idle cfg s) s := by
  have hload : ∀ s : State, Guarantee cfg 0 s s := fun _ => SameFleet.guarantee rfl
  unfold recycleOverRss
  generalize cfg.maxRssMb * 1024 * 1024 = cap
  split
  · exact hs
  generalize range (min cfg.phpWorkers MAX_WORKERS) = is
  induction is generalizing s with
  | nil => exact hs
  | cons i is ih =>
    refine valid_read hload fun s₁ hR₁ => ?_
    have h₁ := hR₁.idle hs
    dsimp only
    split
    · exact ih h₁
    refine valid_read hload fun s₂ hR₂ => ?_
    have h₂ := hR₂.idle h₁
    split
    · exact ih h₂
    refine valid_read hload fun s₃ hR₃ => ?_
    have h₃ := hR₃.idle h₂
    split
    · exact ih h₃
    split
    · refine valid_store fun s₄ _ => ⟨SameFleet.guarantee rfl, valid_store fun s₅ _ => ?_⟩
      refine ⟨fun _ h => absurd h.1.2.2.2.2 (Nat.succ_ne_zero _), ?_⟩
      refine valid_of_not (fun _ _ h => h.pre) ?_ fun _ _ hnot hinv => absurd hinv hnot
      exact fun hinv => absurd hinv.open_.recycled (Nat.succ_ne_zero _)
    · exact ih h₃

/-! ## Reloads -/

theorem hold_thread {n : Nat} (hs : s.fleet.Inv cfg) (hmem : (u, n) ∈ s.starting) :
    Hold cfg (ThreadRely cfg u) (State.started u) u s.fleet := by
  obtain ⟨hcalm, hr, hone⟩ := hs.calm (ne_nil_of_mem hmem)
  have hall : ∀ x ∈ s.starting, x.1 = u := by
    intro x hx
    obtain ⟨y, hy⟩ := length_eq_one_iff.1
      (Nat.le_antisymm hone (length_pos_of_mem hmem))
    rw [show s.starting = [y] from hy, mem_singleton] at hmem hx
    rw [hx, ← hmem]
  refine ⟨hs, hcalm, fun s₁ s₂ hR heq => ?_, fun s₁ hst hr₁ => ?_, hall, fun _ => hr⟩
  · refine (hR.same ⟨n, ?_⟩).trans heq
    rwa [show s₁.starting = s.starting from congrArg Fleet.starting heq]
  · have hnone : s₁.starting.filter (·.1 ≠ u) = [] := by
      rw [hst]
      exact filter_eq_nil_iff.2 fun x hx => by simpa using hall x hx
    unfold State.started State.fleet
    dsimp only
    rw [hnone, hr₁, hr]

theorem valid_beginReload (hcanary : cfg.canary = false) :
    (beginReload cfg u).Valid (ThreadRely cfg u) (Guarantee cfg u)
      (fun _ s => Between cfg u s) s := by
  refine valid_atom fun s₁ hR => ⟨fun hinv h => ?_, ?_⟩
  · obtain ⟨hnil, hr, hz, hclean⟩ := h.2 (Nat.succ_ne_self _)
    refine .of_alone (hinv.begin hnil hr hz hclean _) ?_ ?_ fun _ => ⟨hr, hr, rfl⟩
    · simp [hnil]
    · simp [hnil]
  rw [if_neg (by simp [hcanary])]
  refine valid_store fun s₂ hR => ⟨SameFleet.guarantee rfl, ?_⟩
  have hmem : (u, s₁.began + 1) ∈ s₂.starting := (hR.mine _).2 (.head _)
  refine Valid.post (fun _ s₃ h₃ _ => ⟨fun _ => h₃.2.2, fun _ n => ?_⟩)
    (valid_rollNext (hold_thread hR.inv hmem) _ rfl)
  rw [h₃.2.1]
  exact not_mem_nil

theorem valid_onTerminate :
    onTerminate.Valid (ThreadRely cfg u) (Guarantee cfg u) (fun _ s => Between cfg u s) s := by
  unfold onTerminate
  generalize range MAX_WORKERS = is
  refine valid_store fun s₁ _ => ⟨fun _ h => absurd h.1.2.2.1 (by simp), ?_⟩
  refine valid_of_not (fun _ _ h => h.pre) ?_ fun _ _ hnot hinv => absurd hinv hnot
  exact fun hinv => absurd hinv.open_.shutdown (by simp [State.fleet])

/-! ## Runs -/

theorem move_outside (x : Outside) (hs : s.fleet.Inv cfg) (horderly : Orderly s (outside cfg x s))
    (t : Nat) : Move cfg t s (outside cfg x s) := by
  have hsame : SameFleet s (outside cfg x s) → Move cfg t s (outside cfg x s) :=
    fun h => h.move hs t
  cases x with
  | tick | memory => exact hsame rfl
  | forks fail =>
    have hfail : fail = s.forkFails := horderly.2.1.trans hs.open_.forkFails.symm
    subst hfail
    exact hsame rfl
  | request pid | took pid | error pid =>
    exact hsame (count_elim cfg (SameFleet s) rfl fun _ _ => rfl)
  | replay pid | page pid | regression pid | replayed pid =>
    exact hsame (replay_elim (SameFleet s) rfl fun _ _ _ => rfl)
  | exit pid failed =>
    unfold outside at horderly ⊢
    dsimp only at horderly ⊢
    split at horderly
    next w hw =>
      obtain ⟨hlive, rfl⟩ := worker?_eq_some hw
      have hsig : w.pid ∈ s.signalled := by
        refine (horderly.1 w hlive).resolve_left fun hmem => ?_
        simpa using (mem_filter.1 hmem).2
      obtain ⟨hnil, hr⟩ := hs.of_signalled hlive hsig
      have hall : ∀ x ∈ s.starting, x.1 = t := by
        rw [show s.starting = [] from hnil]
        simp
      exact .of_alone (hs.exit hlive hsig failed) hall hall fun _ => ⟨hr, hr, rfl⟩
    next => exact SameFleet.move rfl hs t

theorem fleet_start : (State.start cfg).fleet.Inv cfg := by
  have hrunning : ∀ j < cfg.workers, (State.start cfg).fleet.Running j := by
    intro j hj
    exact ⟨mem_map_of_mem (mem_range.2 hj), not_mem_nil, if_pos hj⟩
  refine ⟨⟨procs_start cfg, fun i _ => rfl, fun i hi => ?_, fun i _ j _ heq => ?_, fun w hw => ?_,
    fun pid h => by cases h⟩, ⟨rfl, rfl, rfl, rfl, fun _ => rfl, rfl⟩,
    .inl ⟨⟨hrunning, rfl⟩, .inl rfl, Nat.zero_le _⟩⟩
  · exact ⟨succ_pos _, succ_lt_succ hi⟩
  · exact Nat.succ.inj heq
  · obtain ⟨i, hi, rfl⟩ := mem_map.1 hw
    exact ⟨mem_range.1 hi, rfl⟩

theorem contract (hcanary : cfg.canary = false) :
    Pool.Contract (code cfg) (outside cfg) Call.By (fun s s' => Orderly s s' ∧ Separate s s')
      (fun s => s.fleet.Inv cfg) (Between cfg) (Rely cfg) (Guarantee cfg) where
  refl t s hs := by
    cases t with
    | zero => exact ⟨hs, hs, rfl, rfl, fun _ => rfl⟩
    | succ t => exact ⟨hs, hs, fun _ => .rfl, fun _ => rfl⟩
  trans t s s' s'' h h' := by
    cases t with
    | zero => exact LoopRely.trans h h'
    | succ t => exact ThreadRely.trans h h'
  calls t c s hc hs hb := by
    cases t with
    | zero =>
      have hidle : Idle cfg s := fun hinv => (hb hinv).1 rfl
      have hloop : ∀ {s}, Idle cfg s → Between cfg 0 s :=
        fun h hinv => ⟨fun _ => h hinv, fun hne => absurd rfl hne⟩
      cases c with
      | reload u | terminate u => exact absurd rfl hc.2
      | reap k => exact (valid_reap k hidle).post fun _ s => hloop
      | fill => exact (valid_fill hidle).post fun _ s => hloop
      | gate => exact (valid_canaryGate hidle).post fun _ s => hloop
      | recycle => exact (valid_recycleOverRss hidle).post fun _ s => hloop
    | succ t =>
      cases c with
      | reload u =>
        obtain ⟨rfl, -⟩ := hc
        exact valid_beginReload hcanary
      | terminate u => exact valid_onTerminate
      | reap k | fill | gate | recycle => cases hc
  moves t s s' hs h hg := (hg hs h).leaves hs
  env x t s hs h := (move_outside x hs h.1 t).leaves hs

/-- **A worker accepts.** Without the canary, with two web workers or more, and if no reload begins
before the one before it is through with its worker, there is always a web worker that runs and has
not been sent `SIGTERM`. -/
theorem worker_accepting (hcanary : cfg.canary = false) (hweb : 2 ≤ cfg.web)
    {es : List MasterEvent} (hes : Supervised es) (horderly : Meets cfg Orderly es)
    (hseparate : Meets cfg Separate es) : Accepting cfg (masterAfter cfg es).shared := by
  have hinv := (contract hcanary).inv fleet_start
    (fun t _ => ⟨fun _ => rfl, fun _ _ h => by cases h⟩) hes.by (horderly.and hseparate)
  obtain ⟨i, hrunning⟩ := hinv.all_but_one
  obtain ⟨j, hj, hne⟩ : ∃ j < 2, j ≠ i := by
    by_cases hi : i = 0
    · exact ⟨1, Nat.one_lt_two, by omega⟩
    · exact ⟨0, Nat.zero_lt_two, by omega⟩
  have hjweb : j < cfg.web := Nat.lt_of_lt_of_le hj hweb
  have hjworkers := Nat.lt_of_lt_of_le hjweb cfg.web_le
  obtain ⟨hlive, hsig, -⟩ := hrunning j hjworkers hne
  exact ⟨_, hlive, by rwa [hinv.staffed.slot j hjworkers], hsig⟩

/-- Two web workers, and no canary. -/
def twoWeb : Config := webOnly 2 false false two_le

/-- A reload of both workers, and another one when it is over. -/
def wholeRoll : List MasterEvent :=
  reloads 1 ++ [.env (.exit 1 false)] ++ round ++ [.env (.exit 2 false)] ++ round ++ reloads 1

/-- Both workers are rolled, one at a time. -/
theorem worker_accepting_roll :
    (masterAfter twoWeb wholeRoll).shared.log = [.rolled 0, .began, .rolled 1, .rolled 0, .began] ∧
    Accepting twoWeb (masterAfter twoWeb wholeRoll).shared :=
  ⟨by decide +kernel, worker_accepting rfl (by decide) (by decide +kernel)
    (by unfold Meets; decide +kernel) (by unfold Meets; decide +kernel)⟩

/-- Another reload begins while the worker in slot 1 drains. -/
def twoReloads : List MasterEvent :=
  reloads 1 ++ [.env (.exit 1 false)] ++ round ++ reloads 2

/-- **No worker accepts.** A reload signals the first worker whether or not another one drains. -/
theorem none_accepting : ¬ ∀ cfg es, cfg.canary = false → 2 ≤ cfg.web → Supervised es →
    Meets cfg Orderly es → Accepting cfg (masterAfter cfg es).shared := by
  intro h
  have hnot : ¬ Accepting twoWeb (masterAfter twoWeb twoReloads).shared := by decide +kernel
  exact hnot (h twoWeb twoReloads rfl (by decide) (by decide)
    (by unfold Meets; decide +kernel))

end Rolling

end Askr.Supervisor
