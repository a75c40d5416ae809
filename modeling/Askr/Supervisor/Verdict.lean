import Askr.Supervisor.Loop
import Mathlib.Logic.Function.Basic

/-!
# A verdict is about the new code

The canary gate counts requests and replayed pages, and these are to come from the worker that the
reload has forked for slot 0. The counters of a slot are set to 0 before a worker is forked for it,
when its last worker is dead; the verdict of a replay is reset as a reload begins.

But when the gate looks, the old worker may still be there, or a replay of an earlier reload may
still be writing (`old_code_judged`). A verdict is about the new code if by then a new worker has
been forked, and no replay goes on after the next reload has begun (`verdict_about_new_code`).
-/

namespace Askr.Supervisor

open Conc Conc.Prog Function List

def Verdict.isHealthy : Verdict → Bool
  | .healthy _ => true
  | _ => false

/-- What was counted for a verdict that is healthy, or that pages were replayed for, was answered by
a worker in slot 0 that was forked after the reload began. -/
def Judgement.AboutNewCode (j : Judgement) : Prop :=
  j.verdict.isHealthy = true ∨ j.replayed ≠ [] →
    ∀ w ∈ j.requests ++ j.replayed, w.slot = 0 ∧ j.reload ≤ w.era

instance (j : Judgement) : Decidable j.AboutNewCode := inferInstanceAs (Decidable (_ → _))

def judgements : List Entry → List Judgement
  | [] => []
  | .judged j :: log => j :: judgements log
  | .began :: log => judgements log
  | .rolled _ :: log => judgements log

/-- Nobody is in `begin_reload` while the loop is deciding. When a verdict is given, the worker that
was forked last for slot 0 is newer than the reload. A worker replays no page after the next reload
has begun. -/
def Fresh (s s' : State) : Prop :=
  (s'.deciding = false ∨ s'.starting = []) ∧
    (∀ j ∈ (judgements s'.log).take ((judgements s'.log).length - (judgements s.log).length),
      j.reload ≤ (s.owner 0).era) ∧
    ∀ w ∈ s'.region.replayed, w ∈ s.region.replayed ∨ w.era = s.began

instance (s s' : State) : Decidable (Fresh s s') := inferInstanceAs (Decidable (_ ∧ _))

/-! ## What is counted -/

/-- The part of the state that a verdict comes from. -/
structure Tally where
  children : Nat → Nat
  owner : Nat → Worker
  live : List Worker
  zombies : List (Nat × Bool)
  nextPid : Nat
  requests : List Worker
  replayed : List Worker
  deciding : Bool
  began : Nat
  active : Nat
  starting : List (Nat × Nat)
  judged : List Judgement

def State.tally (s : State) : Tally where
  children := s.children
  owner := s.owner
  live := s.live
  zombies := s.zombies
  nextPid := s.nextPid
  requests := (s.perWorker 0).requests
  replayed := s.region.replayed
  deciding := s.deciding
  began := s.began
  active := s.active
  starting := s.starting
  judged := judgements s.log

/-- The requests were counted by the last worker of slot 0, and the pages are not older than the
reload that is to be judged. -/
structure Tally.Inv (cfg : Config) (a : Tally) : Prop where
  judged : ∀ j ∈ a.judged, j.AboutNewCode
  requests : ∀ w ∈ a.requests, w = a.owner 0
  unmeasured : cfg.metrics = false → a.requests = []
  pages : ∀ w ∈ a.replayed, w.slot = 0 ∧ a.active ≤ w.era
  unverified : cfg.verify = false → a.replayed = []
  alone : a.deciding = false ∨ a.starting = []
  active_le : a.active ≤ a.began
  numbered : ∀ x ∈ a.starting, x.2 ≤ a.began
  owner_slot : (a.owner 0).slot = 0
  owner_pos : 0 < (a.owner 0).pid
  owns : ∀ w ∈ a.live, w.slot = 0 → w = a.owner 0
  replays : ∀ w ∈ a.live, w.replays = true → w.slot = 0 ∧ cfg.verify = true
  procs : Procs a.live a.zombies a.nextPid

namespace Tally

variable {cfg : Config} {a : Tally}

def Empty (a : Tally) : Prop := ∀ w ∈ a.live, w.slot ≠ 0

/-- No worker runs in slot 0, and none has counted anything. -/
def Vacant (a : Tally) : Prop := a.Empty ∧ a.requests = []

/-- A worker that runs in slot 0 is on record. -/
def Seated (a : Tally) : Prop := a.Empty ∨ a.children 0 = (a.owner 0).pid

/-- The process does not run any more. -/
def Dead (pid : Nat) (a : Tally) : Prop := pid < a.nextPid ∧ ∀ w ∈ a.live, w.pid ≠ pid

theorem Inv.empty_of_dead (h : a.Inv cfg) (hseat : a.Seated) {pid : Nat} (hdead : a.Dead pid)
    (hc : a.children 0 = pid) : a.Empty := by
  intro w hw h0
  have hseat : a.children 0 = (a.owner 0).pid := hseat.resolve_left fun hempty => hempty w hw h0
  refine hdead.2 w hw ?_
  rw [h.owns w hw h0, ← hseat, hc]

theorem Inv.empty_of_zero (h : a.Inv cfg) (hseat : a.Seated) (hc : a.children 0 = 0) : a.Empty := by
  refine hseat.resolve_right fun heq => ?_
  have hpos := h.owner_pos
  rw [← heq, hc] at hpos
  exact absurd hpos (Nat.lt_irrefl 0)

/-- A worker is forked for a slot. Slot 0 has to be vacant for that. -/
theorem Inv.fork (h : a.Inv cfg) {i : Nat} (hvacant : i = 0 → a.Vacant) {w : Worker}
    (hpid : w.pid = a.nextPid) (hslot : w.slot = i)
    (hreplays : w.replays = true → i = 0 ∧ cfg.verify = true) : Inv cfg { a with
      nextPid := a.nextPid + 1
      live := w :: a.live
      owner := update a.owner i w } := by
  have hother : i ≠ 0 → update a.owner i w 0 = a.owner 0 :=
    fun hi => update_of_ne (Ne.symm hi) _ _
  have hself : (update a.owner i w 0).slot = 0 ∧
      0 < (update a.owner i w 0).pid := by
    rcases eq_or_ne i 0 with rfl | hi
    · rw [update_self]
      exact ⟨hslot, hpid ▸ h.procs.pos⟩
    · rw [hother hi]
      exact ⟨h.owner_slot, h.owner_pos⟩
  refine { h with
    requests := fun v hv => ?_
    owner_slot := hself.1
    owner_pos := hself.2
    owns := fun v hv h0 => ?_
    replays := fun v hv hr => ?_
    procs := h.procs.fork hpid }
  · rcases eq_or_ne i 0 with hi | hi
    · rw [show a.requests = [] from (hvacant hi).2] at hv
      cases hv
    · exact (h.requests v hv).trans (hother hi).symm
  · rcases mem_cons.1 hv with rfl | hv
    · rw [← hslot, h0]
      exact (update_self 0 v a.owner).symm
    · rcases eq_or_ne i 0 with hi | hi
      · exact absurd h0 ((hvacant hi).1 v hv)
      · exact (h.owns v hv h0).trans (hother hi).symm
  · rcases mem_cons.1 hv with rfl | hv
    · exact ⟨hslot.trans (hreplays hr).1, (hreplays hr).2⟩
    · exact h.replays v hv hr

theorem Inv.exit (h : a.Inv cfg) {w : Worker} (hw : w ∈ a.live) (failed : Bool) : Inv cfg { a with
      live := a.live.filter (·.pid ≠ w.pid)
      zombies := a.zombies ++ [(w.pid, failed)] } :=
  { h with
    owns := fun v hv => h.owns v (mem_filter.1 hv).1
    replays := fun v hv => h.replays v (mem_filter.1 hv).1
    procs := h.procs.exit hw failed }

/-- The worker in slot 0 counts a request. -/
theorem Inv.request (h : a.Inv cfg) (hmetrics : cfg.metrics = true) {w : Worker} (hw : w ∈ a.live)
    (hslot : w.slot = 0) : Inv cfg { a with requests := w :: a.requests } :=
  { h with
    requests := by
      intro v hv
      rcases mem_cons.1 hv with rfl | hv
      · exact h.owns v hw hslot
      · exact h.requests v hv
    unmeasured := fun hoff => by rw [hmetrics] at hoff; cases hoff }

/-- A page is replayed by a worker that was forked after the last reload began. -/
theorem Inv.page (h : a.Inv cfg) {w : Worker} (hw : w ∈ a.live) (hr : w.replays = true)
    (hera : w ∈ a.replayed ∨ w.era = a.began) : Inv cfg { a with replayed := w :: a.replayed } := by
  obtain ⟨hslot, hverify⟩ := h.replays w hw hr
  refine { h with pages := fun v hv => ?_, unverified := fun hoff => ?_ }
  · rcases mem_cons.1 hv with rfl | hv
    · rcases hera with hold | hera
      · exact h.pages v hold
      · exact ⟨hslot, hera ▸ h.active_le⟩
    · exact h.pages v hv
  · rw [hverify] at hoff
    cases hoff

theorem Inv.judge (h : a.Inv cfg) {j : Judgement} (hreq : ∀ w ∈ j.requests, w = a.owner 0)
    (hpages : ∀ w ∈ j.replayed, w.slot = 0 ∧ j.reload ≤ w.era) (hera : j.reload ≤ (a.owner 0).era) :
    Inv cfg { a with deciding := false, judged := j :: a.judged } := by
  refine { h with judged := fun k hk => ?_, alone := .inl rfl }
  rcases mem_cons.1 hk with rfl | hk
  · intro _ w hw
    rcases mem_append.1 hw with hw | hw
    · rw [hreq w hw]
      exact ⟨h.owner_slot, hera⟩
    · exact hpages w hw
  · exact h.judged k hk

theorem Inv.begin (h : a.Inv cfg) (hd : a.deciding = false) (u : Nat) :
    Inv cfg { a with began := a.began + 1, starting := (u, a.began + 1) :: a.starting } := by
  refine { h with alone := .inl hd, active_le := Nat.le_succ_of_le h.active_le, numbered := ?_ }
  intro x hx
  rcases mem_cons.1 hx with rfl | hx
  · exact Nat.le_refl _
  · exact Nat.le_succ_of_le (h.numbered x hx)

/-- A reload sets the canary flag, and no page is older than it. -/
theorem Inv.activate (h : a.Inv cfg) {x : Nat × Nat} (hx : x ∈ a.starting)
    (hclean : ∀ w ∈ a.replayed, x.2 ≤ w.era) : Inv cfg { a with active := max a.active x.2 } :=
  { h with
    pages := fun w hw => ⟨(h.pages w hw).1, Nat.max_le.2 ⟨(h.pages w hw).2, hclean w hw⟩⟩
    active_le := Nat.max_le.2 ⟨h.active_le, h.numbered x hx⟩ }

theorem Inv.wipe (h : a.Inv cfg) : Inv cfg { a with replayed := [] } :=
  { h with
    pages := fun w hw => by cases hw
    unverified := fun _ => rfl }

theorem Inv.start (h : a.Inv cfg) (u : Nat) :
    Inv cfg { a with starting := a.starting.filter (·.1 ≠ u) } :=
  { h with
    alone := h.alone.imp_right fun heq => by rw [heq]; rfl
    numbered := fun x hx => h.numbered x (mem_filter.1 hx).1 }

end Tally

namespace Verdicts

/-! ## What the threads do to it -/

/-- The change is none of this part. -/
def SameTally (s s' : State) : Prop := s'.tally = s.tally

/-- What the loop finds as it was. -/
structure Undisturbed (s s' : State) : Prop where
  children : s'.children = s.children
  owner : s'.owner = s.owner
  live : ∀ w ∈ s'.live, w ∈ s.live
  nextPid : s'.nextPid = s.nextPid
  deciding : s'.deciding = s.deciding
  active : s.deciding = true → s'.active = s.active
  vacant : s.tally.Vacant → s'.tally.Vacant

structure Move (cfg : Config) (u : Nat) (s s' : State) : Prop where
  inv : s'.tally.Inv cfg
  others : ∀ x : Nat × Nat, x.1 ≠ u → (x ∈ s'.starting ↔ x ∈ s.starting)
  began_le : s.began ≤ s'.began
  pages : ∀ w ∈ s'.region.replayed, w ∈ s.region.replayed ∨ s.began ≤ w.era
  loop : u ≠ 0 → Undisturbed s s'

structure LoopRely (cfg : Config) (s s' : State) : Prop extends Undisturbed s s' where
  inv : s'.tally.Inv cfg

structure ThreadRely (cfg : Config) (u : Nat) (s s' : State) : Prop where
  inv : s'.tally.Inv cfg
  mine : ∀ n, (u, n) ∈ s'.starting ↔ (u, n) ∈ s.starting
  began_le : s.began ≤ s'.began
  pages : ∀ w ∈ s'.region.replayed, w ∈ s.region.replayed ∨ s.began ≤ w.era

def Rely (cfg : Config) : Nat → State → State → Prop
  | 0 => LoopRely cfg
  | u + 1 => ThreadRely cfg (u + 1)

/-- What a thread does, in a run whose verdicts come in time. -/
def Guarantee (cfg : Config) (u : Nat) (s s' : State) : Prop :=
  s.tally.Inv cfg → Fresh s s' → Move cfg u s s'

/-- Between its calls, the loop has a worker of slot 0 on record, and another thread is not in
`begin_reload`. -/
def Between (t : Nat) (s : State) : Prop :=
  (t = 0 → s.tally.Seated) ∧ (t ≠ 0 → ∀ n, (t, n) ∉ s.starting)

variable {cfg : Config} {s s' s'' : State} {u : Nat}

theorem SameTally.refl (s : State) : SameTally s s := rfl

theorem SameTally.undisturbed (h : SameTally s s') : Undisturbed s s' where
  children := congrArg Tally.children h
  owner := congrArg Tally.owner h
  live w hw := by rwa [show s'.live = s.live from congrArg Tally.live h] at hw
  nextPid := congrArg Tally.nextPid h
  deciding := congrArg Tally.deciding h
  active _ := congrArg Tally.active h
  vacant hv := h ▸ hv

theorem SameTally.move (h : SameTally s s') (hs : s.tally.Inv cfg) (u : Nat) : Move cfg u s s' where
  inv := h ▸ hs
  others x _ := by rw [show s'.starting = s.starting from congrArg Tally.starting h]
  began_le := Nat.le_of_eq (congrArg Tally.began h).symm
  pages w hw := .inl <| by
    rwa [show s'.region.replayed = s.region.replayed from congrArg Tally.replayed h] at hw
  loop _ := h.undisturbed

theorem SameTally.guarantee {u : Nat} (h : SameTally s s') : Guarantee cfg u s s' :=
  fun hs _ => h.move hs u

theorem Move.of_loop (hinv : s'.tally.Inv cfg) (hstarting : s'.starting = s.starting)
    (hbegan : s'.began = s.began) (hpages : s'.region.replayed = s.region.replayed) :
    Move cfg 0 s s' where
  inv := hinv
  others x _ := by rw [hstarting]
  began_le := Nat.le_of_eq hbegan.symm
  pages w hw := .inl (hpages ▸ hw)
  loop h := absurd rfl h

theorem Undisturbed.trans (h : Undisturbed s s') (h' : Undisturbed s' s'') : Undisturbed s s'' where
  children := h'.children.trans h.children
  owner := h'.owner.trans h.owner
  live w hw := h.live w (h'.live w hw)
  nextPid := h'.nextPid.trans h.nextPid
  deciding := h'.deciding.trans h.deciding
  active hd := (h'.active (h.deciding.trans hd)).trans (h.active hd)
  vacant hv := h'.vacant (h.vacant hv)

theorem ThreadRely.trans (h : ThreadRely cfg u s s') (h' : ThreadRely cfg u s' s'') :
    ThreadRely cfg u s s'' where
  inv := h'.inv
  mine n := (h'.mine n).trans (h.mine n)
  began_le := Nat.le_trans h.began_le h'.began_le
  pages w hw := by
    rcases h'.pages w hw with hw | hw
    · exact h.pages w hw
    · exact .inr (Nat.le_trans h.began_le hw)

theorem Undisturbed.empty (h : Undisturbed s s') (he : s.tally.Empty) : s'.tally.Empty :=
  fun w hw => he w (h.live w hw)

theorem Undisturbed.seated (h : Undisturbed s s') (hs : s.tally.Seated) : s'.tally.Seated := by
  refine hs.imp h.empty fun heq => ?_
  show s'.children 0 = (s'.owner 0).pid
  rw [h.children, h.owner]
  exact heq

theorem Undisturbed.dead (h : Undisturbed s s') {pid : Nat} (hd : s.tally.Dead pid) :
    s'.tally.Dead pid :=
  ⟨Nat.lt_of_lt_of_eq hd.1 h.nextPid.symm, fun w hw => hd.2 w (h.live w hw)⟩

theorem Move.threadRely (h : Move cfg u s s') {v : Nat} (hv : v ≠ u) : ThreadRely cfg v s s' :=
  ⟨h.inv, fun n => h.others (v, n) hv, h.began_le, h.pages⟩

theorem ThreadRely.between (h : ThreadRely cfg u s s') (hu : u ≠ 0) (hb : Between u s) :
    Between u s' :=
  ⟨fun h0 => absurd h0 hu, fun _ n hn => hb.2 hu n ((h.mine n).1 hn)⟩

theorem SameTally.between (h : SameTally s s') (hu : u ≠ 0) (hb : Between u s) : Between u s' := by
  refine ⟨fun h0 => absurd h0 hu, fun _ n hn => ?_⟩
  rw [show s'.starting = s.starting from congrArg Tally.starting h] at hn
  exact hb.2 hu n hn

theorem Move.leaves (h : Move cfg u s s') :
    Pool.Leaves (fun s => s.tally.Inv cfg) Between (Rely cfg) u s s' where
  inv := h.inv
  rely t hne := by
    cases t with
    | zero => exact { h.loop hne.symm with inv := h.inv }
    | succ t => exact h.threadRely hne
  between t hne hb := by
    refine ⟨fun ht => (h.loop fun hu => hne (ht.trans hu.symm)).seated (hb.1 ht), fun ht => ?_⟩
    exact ((h.threadRely hne).between ht hb).2 ht

/-! ## What happens outside -/

/-- A counter of a slot is set: only that of the requests of slot 0 is in the tally. -/
theorem tally_setStat (cfg : Config) (s : State) (i : Nat) (f : Stat → Stat) :
    (s.setStat cfg i f).tally =
    { s.tally with requests := if cfg.metrics = true ∧ i = 0 then (f (s.perWorker 0)).requests
                               else s.tally.requests } := by
  have hrequests : ((s.setStat cfg i f).perWorker 0).requests =
      if cfg.metrics = true ∧ i = 0 then (f (s.perWorker 0)).requests else s.tally.requests := by
    by_cases hm : cfg.metrics = true
    · rcases eq_or_ne i 0 with rfl | hi
      · simp [State.setStat, hm]
      · simp [State.setStat, hm, hi, update_of_ne hi.symm, State.tally]
    · simp [State.setStat, hm, State.tally]
  rw [← hrequests]
  rfl

/-- The counters of errors and times are not in the tally. -/
theorem same_setStat (s : State) (i : Nat) {f : Stat → Stat}
    (hf : ∀ st, (f st).requests = st.requests) : SameTally s (s.setStat cfg i f) := by
  unfold SameTally
  rw [tally_setStat, hf]
  exact congrArg (fun requests => { s.tally with requests }) (ite_self _)

/-- A worker counts a request. -/
theorem request_move {w : Worker} (hw : w ∈ s.live) (hs : s.tally.Inv cfg) (u : Nat) :
    Move cfg u s (s.setStat cfg w.slot fun st => { st with requests := w :: st.requests }) := by
  by_cases h : cfg.metrics = true ∧ w.slot = 0
  · have heq := tally_setStat cfg s w.slot fun st => { st with requests := w :: st.requests }
    rw [if_pos h] at heq
    refine ⟨?_, fun _ _ => .rfl, Nat.le_refl _, fun _ => .inl, fun _ => ?_⟩
    · rw [heq]
      exact hs.request h.1 hw h.2
    · exact ⟨rfl, rfl, fun _ => id, rfl, rfl, fun _ => rfl, fun hv => absurd h.2 (hv.1 w hw)⟩
  · refine SameTally.move ((tally_setStat cfg s _ _).trans ?_) hs u
    rw [if_neg h]

theorem outside_move (x : Outside) (hs : s.tally.Inv cfg) (hfresh : Fresh s (outside cfg x s))
    (u : Nat) : Move cfg u s (outside cfg x s) := by
  have hsame : ∀ {s'}, SameTally s s' → Move cfg u s s' := fun h => h.move hs u
  cases x with
  | tick | memory | forks => exact hsame rfl
  | exit pid failed =>
    unfold outside
    dsimp only
    split
    next w hw =>
      obtain ⟨hlive, rfl⟩ := worker?_eq_some hw
      refine ⟨hs.exit hlive failed, fun _ _ => .rfl, Nat.le_refl _, fun _ => .inl, fun _ => ?_⟩
      exact ⟨rfl, rfl, fun v hv => (mem_filter.1 hv).1, rfl, rfl, fun _ => rfl,
        fun hv => ⟨fun v hv' => hv.1 v (mem_filter.1 hv').1, hv.2⟩⟩
    next => exact hsame rfl
  | request pid => exact count_elim cfg (Move cfg u s) (hsame rfl) fun w hw => request_move hw hs u
  | took pid | error pid =>
    exact count_elim cfg (Move cfg u s) (hsame rfl) fun _ _ => hsame (same_setStat s _ fun _ => rfl)
  | page pid =>
    refine replay_elim (fun s' => Fresh s s' → Move cfg u s s') (fun _ => hsame rfl)
      (fun w hw hr hfresh => ?_) hfresh
    have hera := hfresh.2.2 w (.head _)
    refine ⟨hs.page hw hr hera, fun _ _ => .rfl, Nat.le_refl _, fun v hv => ?_, fun _ => ?_⟩
    · rcases mem_cons.1 hv with rfl | hv
      · exact hera.imp_right fun heq => Nat.le_of_eq heq.symm
      · exact .inl hv
    · exact ⟨rfl, rfl, fun _ => id, rfl, rfl, fun _ => rfl, id⟩
  | replay pid | regression pid | replayed pid =>
    unfold outside
    exact replay_elim (Move cfg u s) (hsame rfl) fun _ _ _ => hsame rfl

/-! ## The loop -/

/-- What the loop knows as it reaps a worker. -/
def Safe (pid : Nat) (s : State) : Prop := s.tally.Seated ∧ s.tally.Dead pid

theorem Undisturbed.safe {pid : Nat} (h : Undisturbed s s') (hs : Safe pid s) : Safe pid s' :=
  ⟨h.seated hs.1, h.dead hs.2⟩

/-- What it knows before it forks a worker for the slot. -/
def Ready (i pid : Nat) (s : State) : Prop := Safe pid s ∧ (i = 0 → s.tally.Empty)

variable {i pid : Nat}

theorem Undisturbed.ready (h : Undisturbed s s') (hs : Ready i pid s) : Ready i pid s' :=
  ⟨h.safe hs.1, fun hi => h.empty (hs.2 hi)⟩

theorem valid_same {α : Type} {p : Prog State α} {F : State → Prop}
    (hF : ∀ s s', Undisturbed s s' → F s → F s') (hp : p.Guar SameTally) (hs : F s) :
    p.Valid (LoopRely cfg) (Guarantee cfg 0) (fun _ s => F s) s :=
  hp.keeps (fun s s' h => hF s s' h.toUndisturbed) (fun s s' h => hF s s' h.undisturbed)
    (fun _ _ => SameTally.guarantee) hs

theorem seated_fork {i : Nat} (hi : i ≠ 0) (hs : s.tally.Seated) : (s.fork cfg i).tally.Seated := by
  refine hs.imp (fun hempty w hw => ?_) fun heq => ?_
  · rcases mem_cons.1 hw with rfl | hw
    · exact hi
    · exact hempty w hw
  · show s.children 0 = (update s.owner i _ 0).pid
    rw [update_of_ne hi.symm]
    exact heq

theorem dead_fork (hd : s.tally.Dead pid) : (s.fork cfg i).tally.Dead pid := by
  refine ⟨Nat.lt_succ_of_lt hd.1, fun w hw => ?_⟩
  rcases mem_cons.1 hw with rfl | hw
  · exact (Nat.ne_of_lt hd.1).symm
  · exact hd.2 w hw

/-- A worker is forked for a slot, which is empty if it is slot 0, and goes on record. -/
theorem valid_spawnSlot (hs : Ready i pid s) :
    (spawnSlot cfg i).Valid (LoopRely cfg) (Guarantee cfg 0) (fun _ s => Safe pid s) s := by
  refine valid_store fun s₁ hR₁ => ?_
  obtain ⟨hsafe₁, hempty₁⟩ := hR₁.ready hs
  have htally := tally_setStat cfg s₁ i fun st => { st with requests := [] }
  have hvacant : i = 0 → (s₁.setStat cfg i fun st => { st with requests := [] }).tally.Vacant := by
    intro hi
    rw [htally]
    refine ⟨hempty₁ hi, ?_⟩
    split
    · rfl
    next hm =>
      have hoff : cfg.metrics = false := by
        rw [← Bool.not_eq_true]
        exact fun h => hm ⟨h, hi⟩
      exact hR₁.inv.unmeasured hoff
  have hreset : Guarantee cfg 0 s₁ (s₁.setStat cfg i fun st => { st with requests := [] }) := by
    intro hinv _
    refine .of_loop ?_ rfl rfl rfl
    rw [htally]
    refine { hinv with requests := fun w hw => ?_, unmeasured := fun hoff => ?_ }
    · dsimp only at hw
      split at hw
      · cases hw
      · exact hinv.requests w hw
    · dsimp only
      split
      · rfl
      · exact hinv.unmeasured hoff
  have herrors : ∀ s : State, SameTally s (s.setStat cfg i fun st => { st with errors := 0 }) :=
    fun s => same_setStat s i fun _ => rfl
  have hus : ∀ s : State, SameTally s (s.setStat cfg i fun st => { st with usSum := 0 }) :=
    fun s => same_setStat s i fun _ => rfl
  refine ⟨hreset, valid_store fun s₂ hR₂ => ⟨(herrors s₂).guarantee, ?_⟩⟩
  refine valid_store fun s₃ hR₃ => ⟨(hus s₃).guarantee, valid_atom fun s₄ hR₄ => ?_⟩
  have hquiet : Undisturbed (s₁.setStat cfg i fun st => { st with requests := [] }) s₄ :=
    (hR₂.toUndisturbed.trans (herrors s₂).undisturbed).trans
      ((hR₃.toUndisturbed.trans (hus s₃).undisturbed).trans hR₄.toUndisturbed)
  have hsafe₄ : Safe pid s₄ := hquiet.safe hsafe₁
  split
  · exact ⟨SameTally.guarantee rfl, hsafe₄⟩
  have hreplays : (s₄.child cfg i).replays = true → i = 0 ∧ cfg.verify = true := by
    simp only [State.child, Bool.and_eq_true, beq_iff_eq]
    exact fun h => ⟨h.1.1, h.1.2⟩
  refine ⟨fun hinv _ => ?_, valid_store fun s₅ hR₅ => ⟨fun hinv _ => ?_, ?_⟩⟩
  · exact .of_loop (hinv.fork (fun hi => hquiet.vacant (hvacant hi)) rfl rfl hreplays) rfl rfl rfl
  · exact .of_loop { hinv with } rfl rfl rfl
  · refine ⟨?_, hR₅.dead (dead_fork hsafe₄.2)⟩
    rcases eq_or_ne i 0 with rfl | hi
    · refine .inr ?_
      show update s₅.children 0 s₄.nextPid 0 = (s₅.owner 0).pid
      rw [hR₅.owner, update_self]
      show _ = (update s₄.owner 0 _ 0).pid
      rw [update_self]
      rfl
    · refine (hR₅.seated (seated_fork hi hsafe₄.1)).imp_right fun heq => ?_
      show update s₅.children i s₄.nextPid 0 = (s₅.owner 0).pid
      rw [update_of_ne hi.symm]
      exact heq

theorem guar_rollNext {finish : State → State} (hfinish : ∀ s, SameTally s (finish s)) (n : Nat) :
    (rollNext cfg finish n).Guar SameTally := by
  induction n with
  | zero => exact guar_store hfinish trivial
  | succ n ih =>
    refine guar_atom fun s => ?_
    dsimp only
    split
    · exact ⟨hfinish _, trivial⟩
    · refine ⟨rfl, guar_read SameTally.refl fun s' => ?_⟩
      split
      · exact guar_store (fun s'' => hfinish _) trivial
      · exact ih

theorem same_rolled (s : State) : SameTally s s.rolled := rfl

/-- The worker of a slot has exited. If it is slot 0, the slot is empty. -/
theorem valid_reapSlot {failed : Bool} (hs : Safe pid s) (hi : s.children i = pid) :
    (reapSlot cfg i failed).Valid (LoopRely cfg) (Guarantee cfg 0) (fun _ s => Safe pid s) s := by
  have hexited : ∀ s : State, SameTally s (s.exited cfg i failed).1 := by
    intro s
    obtain ⟨_, _, heq⟩ := exited_cases s i failed
    rw [heq]
    rfl
  unfold reapSlot
  generalize range MAX_WORKERS = is
  refine valid_store fun s₁ hR₁ => ?_
  have hsafe₁ := hR₁.safe hs
  have hchild : s₁.children i = pid := by rw [hR₁.children, hi]
  have hready : Ready i pid { s₁ with children := update s₁.children i 0 } := by
    refine ⟨⟨?_, hsafe₁.2⟩, fun h0 => ?_⟩
    · rcases eq_or_ne i 0 with rfl | h0
      · exact .inl (hR₁.inv.empty_of_dead hsafe₁.1 hsafe₁.2 hchild)
      · refine hsafe₁.1.imp_right fun heq => ?_
        show update s₁.children i 0 0 = _
        rw [update_of_ne h0.symm]
        exact heq
    · exact hR₁.inv.empty_of_dead hsafe₁.1 hsafe₁.2 (h0 ▸ hchild)
  refine ⟨fun hinv _ => .of_loop { hinv with } rfl rfl rfl, ?_⟩
  refine valid_read (fun _ => SameTally.guarantee rfl) fun s₂ hR₂ => ?_
  split
  · exact (hR₂.ready hready).1
  refine valid_atom fun s₃ hR₃ => ?_
  have hready₃ := (hexited s₃).undisturbed.ready (hR₃.ready (hR₂.ready hready))
  split
  · have hgave : SameTally s₃ { (s₃.exited cfg i failed).1 with gaveUp := true } := hexited s₃
    refine ⟨hgave.guarantee, Valid.map _ (valid_same (fun _ _ h => h.safe) ?_ ?_)⟩
    · exact guar_killAll SameTally.refl (fun _ _ => rfl) is
    · exact hgave.undisturbed.safe (hR₃.ready (hR₂.ready hready)).1
  refine ⟨(hexited s₃).guarantee, valid_read (fun _ => SameTally.guarantee rfl) fun s₄ hR₄ => ?_⟩
  have hready₄ := hR₄.ready hready₃
  split
  · exact hready₄.1
  refine Valid.bind ((valid_spawnSlot hready₄).post fun _ s₅ hsafe₅ => valid_atom fun s₆ hR₆ => ?_)
  have hsafe₆ := hR₆.safe hsafe₅
  split
  · exact ⟨SameTally.guarantee rfl, Valid.map _ (valid_same (fun _ _ h => h.safe)
      (guar_rollNext same_rolled _) hsafe₆)⟩
  · exact ⟨SameTally.guarantee rfl, hsafe₆⟩

theorem valid_reapSlots {pid : Nat} (failed : Bool) (is : List Nat) (hs : Safe pid s) :
    (reapSlots cfg pid failed is).Valid (LoopRely cfg) (Guarantee cfg 0) (fun _ s => Safe pid s)
      s := by
  induction is generalizing s with
  | nil => exact valid_store fun s₁ hR₁ => ⟨SameTally.guarantee rfl, hR₁.safe hs⟩
  | cons i is ih =>
    refine valid_read (fun _ => SameTally.guarantee rfl) fun s₁ hR₁ => ?_
    have hsafe₁ := hR₁.safe hs
    split
    next hi =>
      refine Valid.bind ((valid_reapSlot hsafe₁ hi).post fun goesOn s₂ hsafe₂ => ?_)
      cases goesOn with
      | true => exact ih hsafe₂
      | false => exact hsafe₂
    next => exact ih hsafe₁

theorem valid_reap {k : Nat} (hs : s.tally.Seated) :
    (reap cfg k).Valid (LoopRely cfg) (Guarantee cfg 0) (fun _ s => s.tally.Seated) s := by
  refine valid_atom fun s₁ hR₁ => ?_
  split
  · exact ⟨SameTally.guarantee rfl, hR₁.seated hs⟩
  next pid failed hz =>
    have hdead := hR₁.inv.procs.dead _ (mem_of_getElem? hz)
    have hsafe : Safe pid { s₁ with zombies := s₁.zombies.eraseIdx k, reaping := true } :=
      ⟨hR₁.seated hs, hdead⟩
    refine ⟨fun hinv _ => .of_loop { hinv with procs := hinv.procs.reap k } rfl rfl rfl, ?_⟩
    exact (valid_reapSlots failed _ hsafe).post fun _ _ h => h.1

theorem valid_fillSlots (is : List Nat) (hs : Safe 0 s) :
    (fillSlots cfg is).Valid (LoopRely cfg) (Guarantee cfg 0) (fun _ s => Safe 0 s) s := by
  induction is generalizing s with
  | nil => exact hs
  | cons i is ih =>
    refine valid_read (fun _ => SameTally.guarantee rfl) fun s₁ hR₁ => ?_
    have hsafe₁ := hR₁.safe hs
    split
    next hi =>
      have hready : Ready i 0 s₁ :=
        ⟨hsafe₁, fun h0 => hR₁.inv.empty_of_zero hsafe₁.1 (h0 ▸ hi)⟩
      refine valid_read (fun _ => SameTally.guarantee rfl) fun s₂ hR₂ => ?_
      have hready₂ := hR₂.ready hready
      split
      · exact ih hready₂.1
      · exact Valid.bind ((valid_spawnSlot hready₂).post fun _ _ h => ih h)
    next => exact ih hsafe₁

theorem valid_fill (hs : s.tally.Seated) :
    (fill cfg).Valid (LoopRely cfg) (Guarantee cfg 0) (fun _ s => s.tally.Seated) s := by
  refine valid_read (fun _ => SameTally.guarantee rfl) fun s₁ hR₁ => ?_
  have hprocs := hR₁.inv.procs
  have hsafe : Safe 0 s₁ := ⟨hR₁.seated hs, hprocs.pos, fun w hw =>
    Nat.ne_of_gt (hprocs.lt w hw).1⟩
  split
  · exact hsafe.1
  · exact (valid_fillSlots _ hsafe).post fun _ _ h => h.1

/-! ## The gate -/

theorem guarantee_undecided (s : State) : Guarantee cfg 0 s { s with deciding := false } :=
  fun hinv _ => .of_loop { hinv with alone := .inl rfl } rfl rfl rfl

theorem guarantee_decides (s : State) : Guarantee cfg 0 s { s with deciding := true } :=
  fun hinv hfresh => .of_loop { hinv with alone := hfresh.1 } rfl rfl rfl

/-- The pages were replayed by workers in slot 0 that are newer than the reload. -/
def Pages (replayed : List Worker) (reload : Nat) : Prop :=
  ∀ w ∈ replayed, w.slot = 0 ∧ reload ≤ w.era

/-- What the loop knows while it is deciding: the pages are newer than the reload that is to be
judged. -/
structure Deciding (replayed : List Worker) (s : State) : Prop where
  seated : s.tally.Seated
  deciding : s.deciding = true
  pages : Pages replayed s.active

theorem Undisturbed.keeps_deciding {replayed : List Worker} (h : Undisturbed s s')
    (hs : Deciding replayed s) : Deciding replayed s' where
  seated := h.seated hs.seated
  deciding := h.deciding.trans hs.deciding
  pages := h.active hs.deciding ▸ hs.pages

/-- What the loop knows when it has the verdict of the replay. -/
def Gated (gate : Gate) (s : State) : Prop :=
  s.tally.Seated ∧ (gate.replayed = [] ∨ Deciding gate.replayed s)

theorem valid_verifyVerdict (elapsed : Nat) (hs : Deciding [] s) :
    (verifyVerdict cfg elapsed).Valid (LoopRely cfg) (Guarantee cfg 0) Gated s := by
  refine valid_read (fun _ => SameTally.guarantee rfl) fun s₁ hR₁ => ?_
  have h₁ := hR₁.keeps_deciding hs
  split
  · refine ⟨h₁.seated, .inl ?_⟩
    split <;> rfl
  refine valid_read (fun _ => SameTally.guarantee rfl) fun s₂ hR₂ => ?_
  have h₂ := hR₂.keeps_deciding h₁
  split
  · exact ⟨h₂.seated, .inl rfl⟩
  refine valid_read (fun _ => SameTally.guarantee rfl) fun s₃ hR₃ => ?_
  have h₃ := hR₃.keeps_deciding h₂
  exact ⟨h₃.seated, .inr ⟨h₃.seated, h₃.deciding, hR₃.inv.pages⟩⟩

theorem valid_verifyGate (hs : s.tally.Seated) :
    (verifyGate cfg).Valid (LoopRely cfg) (Guarantee cfg 0) Gated s := by
  refine valid_atom fun s₁ hR₁ => ?_
  have h₁ := hR₁.seated hs
  split
  · exact ⟨SameTally.guarantee rfl, h₁, .inl rfl⟩
  have hd : Deciding [] { s₁ with deciding := true } := ⟨h₁, rfl, fun w hw => by cases hw⟩
  refine ⟨guarantee_decides s₁, valid_atom fun s₂ hR₂ => ?_⟩
  have h₂ := hR₂.keeps_deciding hd
  split
  · exact ⟨guarantee_undecided s₂, h₂.seated, .inl rfl⟩
  refine ⟨SameTally.guarantee rfl, valid_atom fun s₃ hR₃ => ?_⟩
  have h₃ := hR₃.keeps_deciding h₂
  split
  · exact ⟨guarantee_undecided s₃, h₃.seated, .inl rfl⟩
  refine ⟨SameTally.guarantee rfl, valid_read (fun _ => SameTally.guarantee rfl) fun s₄ hR₄ => ?_⟩
  exact valid_verifyVerdict _ (hR₄.keeps_deciding h₃)

/-- What the loop knows when it has cleared the canary flag. -/
def Judging (replayed : List Worker) (reload : Nat) (s : State) : Prop :=
  Deciding replayed s ∧ s.active = reload

theorem Undisturbed.judging {replayed : List Worker} {reload : Nat} (h : Undisturbed s s')
    (hs : Judging replayed reload s) : Judging replayed reload s' :=
  ⟨h.keeps_deciding hs.1, (h.active hs.1.deciding).trans hs.2⟩

/-- The verdict about the canary counts requests of the last worker of slot 0. -/
theorem valid_canaryVerdict {replayed : List Worker} {reload : Nat} (alive : Bool)
    (hs : Judging replayed reload s) :
    (canaryVerdict cfg alive).Valid (LoopRely cfg) (Guarantee cfg 0)
      (fun v s => Judging replayed reload s ∧ ∀ w ∈ v.2, w = s.owner 0) s := by
  unfold canaryVerdict
  split
  · exact ⟨hs, fun w hw => by cases hw⟩
  split
  · exact ⟨hs, fun w hw => by cases hw⟩
  refine valid_read (fun _ => SameTally.guarantee rfl) fun s₁ hR₁ => ?_
  have h₁ : Judging replayed reload s₁ ∧ ∀ w ∈ (s₁.perWorker 0).requests, w = s₁.owner 0 :=
    ⟨hR₁.judging hs, hR₁.inv.requests⟩
  generalize (s₁.perWorker 0).requests = requests at h₁ ⊢
  have hkeeps : ∀ s s' : State, Undisturbed s s' →
      (Judging replayed reload s ∧ ∀ w ∈ requests, w = s.owner 0) →
      Judging replayed reload s' ∧ ∀ w ∈ requests, w = s'.owner 0 :=
    fun s s' h hs => ⟨h.judging hs.1, fun w hw => by rw [hs.2 w hw, h.owner]⟩
  have hload : ∀ s : State, Guarantee cfg 0 s s := fun _ => SameTally.guarantee rfl
  refine valid_read hload fun s₂ hR₂ => valid_read hload fun s₃ hR₃ => ?_
  have h₃ := hkeeps _ _ hR₃.toUndisturbed (hkeeps _ _ hR₂.toUndisturbed h₁)
  dsimp only
  split
  · exact h₃
  refine Valid.bind ((valid_fleetTotals (fun s s' h => hkeeps s s' (LoopRely.toUndisturbed h))
    hload 0 cfg.web h₃).post fun _ s₄ h₄ => ?_)
  refine valid_read hload fun s₅ hR₅ => valid_read hload fun s₆ hR₆ => valid_read hload
    fun s₇ hR₇ => ?_
  have h₇ := hkeeps _ _ hR₇.toUndisturbed
    (hkeeps _ _ hR₆.toUndisturbed (hkeeps _ _ hR₅.toUndisturbed h₄))
  split
  · exact h₇
  split
  · exact h₇
  · exact h₇

theorem era_of_judged {j : Judgement} (hfresh : Fresh s s') (hlog : s'.log = .judged j :: s.log) :
    j.reload ≤ (s.owner 0).era := by
  refine hfresh.2.1 j ?_
  rw [hlog]
  simp [judgements]

theorem valid_conclude {j : Judgement} (hs : Judging j.replayed j.reload s)
    (hreq : ∀ w ∈ j.requests, w = s.owner 0) :
    (conclude cfg j).Valid (LoopRely cfg) (Guarantee cfg 0) (fun _ s => s.tally.Seated) s := by
  have hseated : ∀ s s' : State, Undisturbed s s' → s.tally.Seated → s'.tally.Seated :=
    fun _ _ h => h.seated
  have hjudge : ∀ s₁ s₂ : State, LoopRely cfg s s₁ → s₂.log = .judged j :: s₁.log →
      s₂.tally = { s₁.tally with deciding := false, judged := j :: s₁.tally.judged } →
      Guarantee cfg 0 s₁ s₂ := by
    intro s₁ s₂ hR hlog heq hinv hfresh
    have h₁ := hR.judging hs
    refine .of_loop ?_ (congrArg Tally.starting heq) (congrArg Tally.began heq)
      (congrArg Tally.replayed heq)
    rw [heq]
    refine hinv.judge (fun w hw => ?_) (h₁.2 ▸ h₁.1.pages) (era_of_judged hfresh hlog)
    exact (hreq w hw).trans (congrFun hR.owner 0).symm
  unfold conclude
  split
  · refine valid_store fun s₁ hR₁ => ⟨hjudge s₁ _ hR₁ rfl rfl, valid_store fun s₂ hR₂ => ?_⟩
    have hseat : s₁.tally.Seated := (hR₁.judging hs).1.seated
    refine ⟨SameTally.guarantee rfl, ?_⟩
    exact valid_same hseated (guar_rollNext same_rolled _) (hR₂.seated hseat)
  · refine valid_store fun s₁ hR₁ => ⟨hjudge s₁ _ hR₁ rfl rfl, ?_⟩
    refine valid_same hseated ?_ (hR₁.judging hs).1.seated
    refine guar_read SameTally.refl fun s₂ => ?_
    split
    · exact guar_store (fun _ => rfl) (guar_store (fun _ => rfl) trivial)
    · trivial

theorem valid_judge {gate : Gate} {reload : Nat} (hs : Judging gate.replayed reload s) :
    (judge cfg gate reload).Valid (LoopRely cfg) (Guarantee cfg 0) (fun _ s => s.tally.Seated)
      s := by
  refine valid_read (fun _ => SameTally.guarantee rfl) fun s₁ hR₁ => ?_
  have h₁ := hR₁.judging hs
  split
  · exact valid_conclude (j := ⟨reload, _, [], []⟩) h₁ fun w hw => by cases hw
  · exact Valid.bind ((valid_canaryVerdict _ h₁).post fun v s₂ h₂ => valid_conclude h₂.1 h₂.2)

theorem valid_canaryGate (hs : s.tally.Seated) :
    (canaryGate cfg).Valid (LoopRely cfg) (Guarantee cfg 0) (fun _ s => s.tally.Seated) s := by
  refine Valid.bind ((valid_verifyGate hs).post fun gate s hgate => valid_atom fun s₁ hR₁ => ?_)
  have hseat₁ := hR₁.seated hgate.1
  split
  · exact ⟨guarantee_undecided s₁, hseat₁⟩
  have hd : Deciding gate.replayed { s₁ with deciding := true } := by
    refine ⟨hseat₁, rfl, ?_⟩
    rcases hgate.2 with hnil | hd
    · rw [hnil]
      exact fun w hw => by cases hw
    · exact (hR₁.keeps_deciding hd).pages
  refine ⟨guarantee_decides s₁, valid_atom fun s₂ hR₂ => ?_⟩
  have h₂ := hR₂.keeps_deciding hd
  split
  · exact ⟨guarantee_undecided s₂, h₂.seated⟩
  split
  · exact ⟨guarantee_undecided s₂, h₂.seated⟩
  refine ⟨SameTally.guarantee rfl, valid_atom fun s₃ hR₃ => ?_⟩
  have h₃ := hR₃.keeps_deciding h₂
  exact ⟨SameTally.guarantee rfl, valid_judge ⟨⟨h₃.seated, h₃.deciding, h₃.pages⟩, rfl⟩⟩

/-! ## Reloads -/

/-- What a thread knows in `begin_reload`: the number of its reload, which has begun. -/
def Begun (u n : Nat) (s : State) : Prop := Starts u n s ∧ n ≤ s.began

theorem ThreadRely.begun {n : Nat} (h : ThreadRely cfg u s s') (hs : Begun u n s) : Begun u n s' :=
  ⟨⟨(h.mine n).2 hs.1.1, fun m hm => hs.1.2 m ((h.mine m).1 hm)⟩, Nat.le_trans hs.2 h.began_le⟩

/-- What it knows when it has reset the verdict of the replay: no page is older than its reload. -/
def Cleaned (cfg : Config) (u n : Nat) (s : State) : Prop :=
  Begun u n s ∧ (cfg.verify = true → ∀ w ∈ s.region.replayed, n ≤ w.era)

theorem ThreadRely.cleaned {n : Nat} (h : ThreadRely cfg u s s') (hs : Cleaned cfg u n s) :
    Cleaned cfg u n s' := by
  refine ⟨h.begun hs.1, fun hv w hw => ?_⟩
  rcases h.pages w hw with hw | hera
  · exact hs.2 hv w hw
  · exact Nat.le_trans hs.1.2 hera

theorem Move.of_thread {began active : Nat} {starting : List (Nat × Nat)} {replayed : List Worker}
    (heq : s'.tally = { s.tally with began, active, starting, replayed }) (hinv : s'.tally.Inv cfg)
    (hothers : ∀ x : Nat × Nat, x.1 ≠ u → (x ∈ starting ↔ x ∈ s.starting))
    (hbegan : s.began ≤ began) (hpages : ∀ w ∈ replayed, w ∈ s.region.replayed)
    (hactive : s.deciding = true → active = s.active) : Move cfg u s s' where
  inv := hinv
  others x hx := by
    rw [show s'.starting = starting from congrArg Tally.starting heq]
    exact hothers x hx
  began_le := (show s'.began = began from congrArg Tally.began heq) ▸ hbegan
  pages w hw := by
    rw [show s'.region.replayed = replayed from congrArg Tally.replayed heq] at hw
    exact .inl (hpages w hw)
  loop _ := by
    refine ⟨congrArg Tally.children heq, congrArg Tally.owner heq, fun w hw => ?_,
      congrArg Tally.nextPid heq, congrArg Tally.deciding heq, fun hd => ?_, fun hv => ?_⟩
    · rwa [show s'.live = s.live from congrArg Tally.live heq] at hw
    · rw [← hactive hd]
      exact congrArg Tally.active heq
    · rw [heq]
      exact hv

theorem valid_verifyReset {n : Nat} {p : Prog State Unit} {Q : Unit → State → Prop}
    (hs : Begun u n s)
    (hp : ∀ s, Cleaned cfg u n s → p.Valid (ThreadRely cfg u) (Guarantee cfg u) Q s) :
    (verifyReset cfg p).Valid (ThreadRely cfg u) (Guarantee cfg u) Q s := by
  unfold verifyReset
  split
  next hv =>
    refine valid_store fun s₁ hR₁ => ⟨SameTally.guarantee rfl, valid_store fun s₂ hR₂ => ?_⟩
    have h₂ := hR₂.begun (hR₁.begun hs)
    have hclean : Cleaned cfg u n { s₂ with region := { s₂.region with replayed := [] } } :=
      ⟨h₂, fun _ w hw => by cases hw⟩
    refine ⟨fun hinv _ => ?_, valid_store fun s₃ hR₃ => ⟨SameTally.guarantee rfl, ?_⟩⟩
    · exact .of_thread rfl hinv.wipe (fun _ _ => .rfl) (Nat.le_refl _) (fun w hw => by cases hw)
        fun _ => rfl
    · exact hp _ (hR₃.cleaned hclean)
  next hv => exact hp s ⟨hs, fun h => absurd h hv⟩

theorem valid_canaryReload {n : Nat} (hu : u ≠ 0) (hs : Begun u n s) :
    (canaryReload cfg u n).Valid (ThreadRely cfg u) (Guarantee cfg u)
      (fun _ s => Between u s) s := by
  have hsame : ∀ {s s' : State}, SameTally s s' → Guarantee cfg u s s' := SameTally.guarantee
  have hkeeps : ∀ s s', ThreadRely cfg u s s' → Cleaned cfg u n s → Cleaned cfg u n s' :=
    fun _ _ h => h.cleaned
  refine valid_verifyReset hs fun s hs => Valid.bind ((valid_fleetTotals hkeeps
    (fun _ => hsame rfl) 0 cfg.workers hs).post fun _ s hs => ?_)
  refine valid_store fun s₀ hR₀ => ⟨hsame rfl, valid_store fun s₁ hR₁ => ⟨hsame rfl, ?_⟩⟩
  refine valid_store fun s₂ hR₂ => ⟨hsame rfl, valid_store fun s₃ hR₃ => ⟨hsame rfl, ?_⟩⟩
  have h₃ := hR₃.cleaned (hR₂.cleaned (hR₁.cleaned (hR₀.cleaned hs)))
  refine valid_store fun s₄ hR₄ => ?_
  have h₄ := hR₄.cleaned h₃
  have hpages : ∀ w ∈ s₄.region.replayed, n ≤ w.era := by
    intro w hw
    cases hv : cfg.verify with
    | true => exact h₄.2 hv w hw
    | false =>
      rw [show s₄.region.replayed = [] from hR₄.inv.unverified hv] at hw
      cases hw
  refine ⟨fun hinv _ => .of_thread rfl (hinv.activate h₄.1.1.1 hpages) (fun _ _ => .rfl)
    (Nat.le_refl _) (fun _ => id) fun hd => ?_, valid_store fun s₅ hR₅ => ⟨hsame rfl,
      valid_atom fun s₆ hR₆ => ?_⟩⟩
  · have hnone : s₄.starting = [] := hinv.alone.resolve_left fun h => by
      rw [show s₄.deciding = false from h] at hd
      cases hd
    exact absurd hnone (ne_nil_of_mem h₄.1.1.1)
  have hreturns : ∀ s : State, Between u (s.started u) :=
    fun s => ⟨fun h => absurd h hu, fun _ m => notMem_started u m s⟩
  split
  · refine ⟨hsame rfl, valid_store fun s₇ hR₇ => ⟨fun hinv _ => ?_, hreturns _⟩⟩
    exact .of_thread rfl (hinv.start u) (fun _ hx => mem_started hx) (Nat.le_refl _) (fun _ => id)
      fun _ => rfl
  · refine ⟨fun hinv _ => ?_, hreturns s₆⟩
    exact .of_thread rfl (hinv.start u) (fun _ hx => mem_started hx) (Nat.le_refl _) (fun _ => id)
      fun _ => rfl

theorem valid_beginReload (hcanary : cfg.canary = true) (hu : u ≠ 0) (hs : Between u s) :
    (beginReload cfg u).Valid (ThreadRely cfg u) (Guarantee cfg u) (fun _ s => Between u s) s := by
  refine valid_atom fun s₁ hR => ⟨fun hinv hfresh => ?_, ?_⟩
  · have hd : s₁.deciding = false := hfresh.1.resolve_right (cons_ne_nil _ _)
    refine .of_thread rfl (hinv.begin hd u) (fun x hx => ?_) (Nat.le_succ _) (fun _ => id)
      fun _ => rfl
    exact ⟨fun h => (mem_cons.1 h).resolve_left fun heq => hx (heq ▸ rfl), .tail _⟩
  · rw [if_pos hcanary]
    refine valid_canaryReload hu ⟨⟨.head _, fun m hm => ?_⟩, Nat.le_refl _⟩
    rcases mem_cons.1 hm with heq | hm
    · exact (Prod.mk.inj heq).2
    · exact absurd ((hR.mine m).1 hm) (hs.2 hu m)

/-! ## Runs -/

theorem tally_start : (State.start cfg).tally.Inv cfg where
  judged j hj := by cases hj
  requests w hw := by cases hw
  unmeasured _ := rfl
  pages w hw := by cases hw
  unverified _ := rfl
  alone := .inl rfl
  active_le := Nat.le_refl _
  numbered x hx := by cases hx
  owner_slot := rfl
  owner_pos := Nat.one_pos
  owns w hw h0 := by
    obtain ⟨i, -, rfl⟩ := mem_map.1 hw
    exact congrArg firstWorker h0
  replays w hw hr := by
    obtain ⟨i, -, rfl⟩ := mem_map.1 hw
    cases hr
  procs := procs_start cfg

theorem seated_start : (State.start cfg).tally.Seated := by
  by_cases h : 0 < cfg.workers
  · exact .inr (if_pos h)
  · refine .inl fun w hw => ?_
    obtain ⟨i, hi, -⟩ := mem_map.1 hw
    have hi := mem_range.1 hi
    omega

theorem contract (hcanary : cfg.canary = true) :
    Pool.Contract (code cfg) (outside cfg) Call.By Fresh (fun s => s.tally.Inv cfg) Between
      (Rely cfg) (Guarantee cfg) where
  refl t s hs := by
    cases t with
    | zero => exact { (SameTally.refl s).undisturbed with inv := hs }
    | succ t => exact ⟨hs, fun _ => .rfl, Nat.le_refl _, fun _ => .inl⟩
  trans t s s' s'' h h' := by
    cases t with
    | zero => exact { h.toUndisturbed.trans h'.toUndisturbed with inv := h'.inv }
    | succ t => exact ThreadRely.trans h h'
  calls t c s hc hs hb := by
    cases t with
    | zero =>
      have hseat := hb.1 rfl
      have hloop : ∀ {s : State}, s.tally.Seated → Between 0 s :=
        fun hseat => ⟨fun _ => hseat, fun h => absurd rfl h⟩
      cases c with
      | reload u | terminate u => exact absurd rfl hc.2
      | reap k => exact (valid_reap hseat).post fun _ s => hloop
      | fill => exact (valid_fill hseat).post fun _ s => hloop
      | gate => exact (valid_canaryGate hseat).post fun _ s => hloop
      | recycle =>
        have hguar : (recycleOverRss cfg).Guar SameTally :=
          guar_recycleOverRss SameTally.refl (fun _ _ => rfl) (fun _ _ => rfl) fun _ _ => rfl
        exact (valid_same (fun _ _ h => h.seated) hguar hseat).post fun _ s => hloop
    | succ t =>
      cases c with
      | reload u =>
        obtain ⟨rfl, hu⟩ := hc
        exact valid_beginReload hcanary hu hb
      | terminate u =>
        have hguar : onTerminate.Guar SameTally :=
          guar_onTerminate SameTally.refl (fun _ _ => rfl) fun _ => rfl
        exact hguar.keeps (fun _ _ h => ThreadRely.between h hc.2) (fun _ _ h => h.between hc.2)
          (fun _ _ => SameTally.guarantee) hb
      | reap k | fill | gate | recycle => cases hc
  moves t s s' hs hfresh hg := (hg hs hfresh).leaves
  env x t s hs hfresh := (outside_move x hs hfresh t).leaves

/-- **A verdict is about the new code**, in a run where it is given when a new worker has been
forked for slot 0, and where no replay goes on after the next reload has begun. -/
theorem verdict_about_new_code (hcanary : cfg.canary = true) {es : List MasterEvent}
    (hes : Supervised es) (hfresh : Meets cfg Fresh es) :
    ∀ j ∈ judgements (masterAfter cfg es).shared.log, j.AboutNewCode := by
  refine ((contract hcanary).inv tally_start (fun t => ⟨fun _ => seated_start, fun _ n h => ?_⟩)
    hes.by hfresh).judged
  cases h

/-- Two web workers, the canary and verified reloads. -/
def verified : Config := webOnly 2 true true two_le

/-- A reload whose canary answers a request and replays a page. -/
def freshReload : List MasterEvent :=
  reloads 1 ++ [.env (.exit 1 false)] ++ round ++
    [.env (.replay 3), .env (.request 3), .env (.took 3 10), .env (.page 3), .env (.replayed 3),
      .env (.tick 5)] ++ round

/-- Both are counted, and were answered by the new worker. -/
theorem verdict_about_new_code_fresh : (judgements (masterAfter verified freshReload).shared.log =
      [⟨1, .healthy 1, [⟨3, 0, 1, true⟩], [⟨3, 0, 1, true⟩]⟩]) ∧
    ∀ j ∈ judgements (masterAfter verified freshReload).shared.log, j.AboutNewCode :=
  ⟨by decide +kernel, verdict_about_new_code rfl (by decide +kernel)
    (by unfold Meets; decide +kernel)⟩

/-- The old worker drains for longer than the canary's window, and answers a request. -/
def slowDrain : List MasterEvent :=
  reloads 1 ++ [.env (.request 1), .env (.took 1 10), .env (.tick 5)] ++ round

/-- **The old code is judged.** -/
theorem old_code_judged : ¬ ∀ cfg es, cfg.canary = true → Supervised es →
    ∀ j ∈ judgements (masterAfter cfg es).shared.log, j.AboutNewCode := by
  intro h
  let cfg := webOnly 2 true false two_le
  have hnot : ¬ ∀ j ∈ judgements (masterAfter cfg slowDrain).shared.log, j.AboutNewCode := by
    decide +kernel
  exact hnot (h cfg slowDrain rfl (by decide))

end Verdicts

end Askr.Supervisor
