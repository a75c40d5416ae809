import Askr.Supervisor.Loop
import Mathlib.Data.List.Infix

/-!
# The canary goes first

With the canary, a reload is to restart the worker in slot 0 and to leave the others alone until the
verdict, and for good after an unhealthy one.

The cursor of a roll is not touched when such a reload begins. If an earlier roll is still under way
then, the exit of the canary's predecessor makes the loop go on with it (`rolled_before_verdict`).
The others are left alone in runs where no reload begins during a roll or a verdict
(`canary_alone`).
-/

namespace Askr.Supervisor

open Conc Conc.Prog List

def begun : List Entry → Nat
  | [] => 0
  | .began :: log => begun log + 1
  | _ :: log => begun log

/-- The others may roll: there is a verdict about the last reload, and it lets them. -/
def Open : List Entry → Bool
  | [] => false
  | .began :: _ => false
  | .judged j :: log => j.verdict.rolls && j.reload == begun log
  | .rolled _ :: log => Open log

/-- The last thing that has happened is no signal to a worker that may not roll. -/
def Allowed : List Entry → Bool
  | .rolled i :: log => i == 0 || Open log
  | _ => true

/-- Reloads send `SIGTERM` to slot 0 alone, unless the others may roll. -/
def OnlyCanary (log : List Entry) : Prop := ∀ past ∈ log.tails, Allowed past = true

instance (log : List Entry) : Decidable (OnlyCanary log) :=
  inferInstanceAs (Decidable (∀ past ∈ log.tails, Allowed past = true))

theorem onlyCanary_cons {e : Entry} {log : List Entry} (he : Allowed (e :: log) = true)
    (h : OnlyCanary log) : OnlyCanary (e :: log) := by
  intro past hpast
  rcases suffix_cons_iff.1 ((mem_tails past _).1 hpast) with rfl | hpast
  · exact he
  · exact h past ((mem_tails past _).2 hpast)

variable (cfg : Config)

/-- A reload begins when no roll is under way, and nobody is in `begin_reload` while the loop is
deciding. -/
def Spaced (s s' : State) : Prop :=
  (s'.began ≠ s.began → cfg.workers ≤ s.reloadCursor ∧ s.rolling = false) ∧
    (s'.deciding = false ∨ s'.starting = [])

instance (s s' : State) : Decidable (Spaced cfg s s') := inferInstanceAs (Decidable (_ ∧ _))

/-! ## What decides which workers are rolled -/

/-- The part of the state that decides which workers are rolled. -/
structure Rollout where
  cursor : Nat
  rolling : Bool
  canary : Bool
  deciding : Bool
  began : Nat
  active : Nat
  starting : List (Nat × Nat)
  log : List Entry

def State.rollout (s : State) : Rollout where
  cursor := s.reloadCursor
  rolling := s.rolling
  canary := s.canaryActive
  deciding := s.deciding
  began := s.began
  active := s.active
  starting := s.starting
  log := s.log

/-- The others roll only when they may. They may not as long as there is a reload that waits for its
verdict, and a verdict is about the last reload. -/
structure Rollout.Inv (r : Rollout) : Prop where
  only : OnlyCanary r.log
  rolls : r.cursor < cfg.workers ∨ r.rolling = true → Open r.log = true
  waits : r.canary = true ∨ r.deciding = true ∨ r.starting ≠ [] → Open r.log = false
  alone : r.deciding = false ∨ r.starting = []
  count : begun r.log = r.began
  active_le : r.active ≤ r.began
  numbered : ∀ x ∈ r.starting, x.2 ≤ r.began
  latest : r.active = r.began ∨ ∃ u, (u, r.began) ∈ r.starting

namespace Rollout

variable {cfg : Config} {r : Rollout}

/-- The cursor moves, when the others may roll. -/
theorem Inv.roll (h : r.Inv cfg) (ho : Open r.log = true) (cursor : Nat) (rolling : Bool) :
    Inv cfg { r with cursor, rolling } :=
  { h with rolls := fun _ => ho }

/-- A worker is sent `SIGTERM`: the canary, or another one when they may roll. -/
theorem Inv.send (h : r.Inv cfg) {i : Nat} (hi : i = 0 ∨ Open r.log = true) :
    Inv cfg { r with log := .rolled i :: r.log } :=
  { h with only := onlyCanary_cons (by simpa [Allowed] using hi) h.only }

/-- The loop has looked at the canary flag. -/
theorem Inv.decide (h : r.Inv cfg) {b : Bool} (hb : b = true → Open r.log = false)
    (halone : b = false ∨ r.starting = []) : Inv cfg { r with deciding := b } := by
  refine { h with alone := halone, waits := ?_ }
  rintro (hw | hw | hw)
  · exact h.waits (.inl hw)
  · exact hb hw
  · exact h.waits (.inr (.inr hw))

theorem Inv.clear (h : r.Inv cfg) : Inv cfg { r with canary := false } :=
  { h with waits := fun hw => h.waits (.inr (hw.resolve_left Bool.false_ne_true)) }

/-- While the loop decides, nobody rolls. -/
theorem Inv.not_rolling (h : r.Inv cfg) (hd : r.deciding = true) :
    ¬ (r.cursor < cfg.workers ∨ r.rolling = true) := by
  intro hr
  have hclosed := h.waits (.inr (.inl hd))
  rw [h.rolls hr] at hclosed
  cases hclosed

/-- The verdict about the last reload. -/
theorem Inv.judge (h : r.Inv cfg) (hd : r.deciding = true) (hc : r.canary = false)
    {j : Judgement} (hj : j.reload = r.began) {b : Bool} (hb : b = true → j.verdict.rolls = true) :
    Inv cfg { r with deciding := false, rolling := b, log := .judged j :: r.log } := by
  have hnone : r.starting = [] := h.alone.resolve_left (by simp [hd])
  have hopen : Open (.judged j :: r.log) = j.verdict.rolls := by
    simp [Open, hj, h.count]
  refine ⟨onlyCanary_cons rfl h.only, fun hr => ?_, fun hw => ?_, .inl rfl, h.count, h.active_le,
    h.numbered, h.latest⟩
  · rw [hopen]
    exact hb (hr.resolve_left fun hlt => h.not_rolling hd (.inl hlt))
  · simp [hc, hnone] at hw

theorem Inv.begin (h : r.Inv cfg) (hc : cfg.workers ≤ r.cursor) (hr : r.rolling = false)
    (hd : r.deciding = false) (u : Nat) : Inv cfg { r with
      began := r.began + 1
      starting := (u, r.began + 1) :: r.starting
      log := .began :: r.log } where
  only := onlyCanary_cons rfl h.only
  rolls := by
    rintro (hlt | hroll)
    · exact absurd hlt (Nat.not_lt.2 hc)
    · rw [hr] at hroll
      cases hroll
  waits _ := rfl
  alone := .inl hd
  count := congrArg (· + 1) h.count
  active_le := Nat.le_succ_of_le h.active_le
  numbered x hx := by
    rcases mem_cons.1 hx with rfl | hx
    · exact Nat.le_refl _
    · exact Nat.le_succ_of_le (h.numbered x hx)
  latest := .inr ⟨u, .head _⟩

/-- A reload sets the canary flag. -/
theorem Inv.activate (h : r.Inv cfg) {x : Nat × Nat} (hx : x ∈ r.starting) :
    Inv cfg { r with canary := true, active := max r.active x.2 } := by
  refine { h with
    waits := fun _ => h.waits (.inr (.inr (ne_nil_of_mem hx)))
    active_le := Nat.max_le.2 ⟨h.active_le, h.numbered x hx⟩
    latest := h.latest.imp_left fun heq => ?_ }
  dsimp only
  rw [heq]
  exact Nat.max_eq_left (h.numbered x hx)

/-- The thread `u` returns from the start of its reload `n`. -/
theorem Inv.start (h : r.Inv cfg) {u n : Nat} (hmem : (u, n) ∈ r.starting)
    (hmine : ∀ m, (u, m) ∈ r.starting → m = n) (hn : n ≤ r.active) :
    Inv cfg { r with starting := r.starting.filter (·.1 ≠ u) } := by
  refine { h with
    waits := fun _ => h.waits (.inr (.inr (ne_nil_of_mem hmem)))
    alone := h.alone.imp_right fun heq => absurd heq (ne_nil_of_mem hmem)
    numbered := fun x hx => h.numbered x (mem_filter.1 hx).1
    latest := ?_ }
  rcases h.latest with heq | ⟨v, hv⟩
  · exact .inl heq
  · by_cases hvu : v = u
    · subst hvu
      exact .inl (Nat.le_antisymm h.active_le (hmine _ hv ▸ hn))
    · exact .inr ⟨v, mem_filter.2 ⟨hv, by simpa using hvu⟩⟩

end Rollout

namespace Canary

/-! ## What the threads do to it -/

/-- The change is none of this part. -/
def SameRollout (s s' : State) : Prop := s'.rollout = s.rollout

/-- What a thread may do. A thread other than the loop leaves the loop alone, all the more while it
is deciding. -/
structure Move (u : Nat) (s s' : State) : Prop where
  inv : s'.rollout.Inv cfg
  others : ∀ x : Nat × Nat, x.1 ≠ u → (x ∈ s'.starting ↔ x ∈ s.starting)
  active_le : s.active ≤ s'.active
  loop : u ≠ 0 → s'.deciding = s.deciding ∧ s'.rolling = s.rolling ∧
    (s.deciding = true → SameRollout s s')

structure LoopRely (s s' : State) : Prop where
  inv : s'.rollout.Inv cfg
  deciding : s'.deciding = s.deciding
  rolling : s'.rolling = s.rolling
  same : s.deciding = true → SameRollout s s'

structure ThreadRely (u : Nat) (s s' : State) : Prop where
  inv : s'.rollout.Inv cfg
  mine : ∀ n, (u, n) ∈ s'.starting ↔ (u, n) ∈ s.starting
  active_le : s.active ≤ s'.active

def Rely : Nat → State → State → Prop
  | 0 => LoopRely cfg
  | u + 1 => ThreadRely cfg (u + 1)

/-- What a thread does, in a run whose reloads are spaced. -/
def Guarantee (u : Nat) (s s' : State) : Prop :=
  s.rollout.Inv cfg → Spaced cfg s s' → Move cfg u s s'

/-- Between its calls, a thread is not in `begin_reload`. -/
def Between (t : Nat) (s : State) : Prop := t ≠ 0 → ∀ n, (t, n) ∉ s.starting

variable {cfg : Config} {s s' s'' : State} {u : Nat}

theorem SameRollout.refl (s : State) : SameRollout s s := rfl

theorem SameRollout.move (h : SameRollout s s') (hs : s.rollout.Inv cfg) (u : Nat) :
    Move cfg u s s' where
  inv := h ▸ hs
  others x _ := by rw [show s'.starting = s.starting from congrArg Rollout.starting h]
  active_le := Nat.le_of_eq (congrArg Rollout.active h).symm
  loop _ := ⟨congrArg Rollout.deciding h, congrArg Rollout.rolling h, fun _ => h⟩

theorem SameRollout.guarantee {u : Nat} (h : SameRollout s s') : Guarantee cfg u s s' :=
  fun hs _ => h.move hs u

theorem Move.of_loop (hinv : s'.rollout.Inv cfg) (hstarting : s'.starting = s.starting)
    (hactive : s'.active = s.active) : Move cfg 0 s s' where
  inv := hinv
  others x _ := by rw [hstarting]
  active_le := Nat.le_of_eq hactive.symm
  loop h := absurd rfl h

theorem LoopRely.trans (h : LoopRely cfg s s') (h' : LoopRely cfg s' s'') : LoopRely cfg s s'' where
  inv := h'.inv
  deciding := h'.deciding.trans h.deciding
  rolling := h'.rolling.trans h.rolling
  same hd := (h'.same (h.deciding.trans hd)).trans (h.same hd)

theorem ThreadRely.trans (h : ThreadRely cfg u s s') (h' : ThreadRely cfg u s' s'') :
    ThreadRely cfg u s s'' where
  inv := h'.inv
  mine n := (h'.mine n).trans (h.mine n)
  active_le := Nat.le_trans h.active_le h'.active_le

theorem ThreadRely.between (h : ThreadRely cfg u s s') (hb : Between u s) : Between u s' :=
  fun h0 n hn => hb h0 n ((h.mine n).1 hn)

theorem SameRollout.between (h : SameRollout s s') (hb : Between u s) : Between u s' := by
  intro h0 n hn
  rw [show s'.starting = s.starting from congrArg Rollout.starting h] at hn
  exact hb h0 n hn

theorem Move.loopRely (h : Move cfg u s s') (hu : u ≠ 0) : LoopRely cfg s s' :=
  ⟨h.inv, (h.loop hu).1, (h.loop hu).2.1, (h.loop hu).2.2⟩

theorem Move.threadRely (h : Move cfg u s s') {v : Nat} (hv : v ≠ u) : ThreadRely cfg v s s' :=
  ⟨h.inv, fun n => h.others (v, n) hv, h.active_le⟩

theorem Move.leaves (h : Move cfg u s s') :
    Pool.Leaves (fun s => s.rollout.Inv cfg) Between (Rely cfg) u s s' where
  inv := h.inv
  rely t hne := by
    cases t with
    | zero => exact h.loopRely hne.symm
    | succ t => exact h.threadRely hne
  between t hne hb := (h.threadRely hne).between hb

/-! ## Calls that do nothing to it -/

theorem guar_spawnSlot (i : Nat) : (spawnSlot cfg i).Guar SameRollout := by
  refine guar_store (fun _ => rfl) (guar_store (fun _ => rfl) (guar_store (fun _ => rfl) ?_))
  refine guar_atom fun s => ?_
  split
  · exact ⟨rfl, trivial⟩
  · exact ⟨rfl, guar_store (fun _ => rfl) trivial⟩

theorem guar_fillSlots (is : List Nat) : (fillSlots cfg is).Guar SameRollout := by
  induction is with
  | nil => trivial
  | cons i is ih =>
    refine guar_read SameRollout.refl fun s => ?_
    split
    · refine guar_read SameRollout.refl fun s => ?_
      split
      · exact ih
      · exact (guar_spawnSlot i).bind fun _ => ih
    · exact ih

theorem guar_fill : (fill cfg).Guar SameRollout := by
  refine guar_read SameRollout.refl fun s => ?_
  split
  · trivial
  · exact guar_fillSlots _

theorem same_outside (x : Outside) (s : State) : SameRollout s (outside cfg x s) := by
  cases x with
  | tick | memory | forks => rfl
  | exit =>
    unfold outside
    dsimp only
    split <;> rfl
  | request pid | took pid | error pid => exact count_elim cfg (SameRollout s) rfl fun _ _ => rfl
  | replay pid | page pid | regression pid | replayed pid =>
    exact replay_elim (SameRollout s) rfl fun _ _ _ => rfl

/-! ## The loop -/

/-- The loop looks for the next worker to roll, which it may. -/
theorem valid_rollNext (n : Nat) (hs : s.rolling = true) :
    (rollNext cfg State.rolled n).Valid (LoopRely cfg) (Guarantee cfg 0) (fun _ _ => True) s := by
  have hover : ∀ s : State, s.rolling = true → Guarantee cfg 0 s s.rolled := by
    intro s hr hinv _
    exact .of_loop (hinv.roll (hinv.rolls (.inr hr)) _ _) rfl rfl
  induction n generalizing s with
  | zero => exact valid_store fun s' hR => ⟨hover s' (hR.rolling.trans hs), trivial⟩
  | succ n ih =>
    refine valid_atom fun s₁ hR => ?_
    have h₁ : s₁.rolling = true := hR.rolling.trans hs
    dsimp only
    split
    · refine ⟨fun hinv _ => ?_, trivial⟩
      exact .of_loop (hinv.roll (hinv.rolls (.inr h₁)) _ _) rfl rfl
    · refine ⟨fun hinv _ => ?_, valid_read (fun _ => SameRollout.guarantee rfl) fun s₂ hR => ?_⟩
      · exact .of_loop (hinv.roll (hinv.rolls (.inr h₁)) _ _) rfl rfl
      have h₂ : s₂.rolling = true := hR.rolling.trans h₁
      split
      · refine valid_store fun s₃ hR => ⟨fun hinv _ => ?_, trivial⟩
        have hopen : Open s₃.log = true := hinv.rolls (.inr (hR.rolling.trans h₂))
        exact .of_loop ((hinv.send (.inr hopen)).roll hopen _ _) rfl rfl
      · exact ih h₂

theorem valid_reapSlot (i : Nat) (failed : Bool) (s : State) :
    (reapSlot cfg i failed).Valid (LoopRely cfg) (Guarantee cfg 0) (fun _ _ => True) s := by
  have hsame : ∀ {s s' : State}, SameRollout s s' → Guarantee cfg 0 s s' := SameRollout.guarantee
  have hexited : ∀ s : State, SameRollout s (s.exited cfg i failed).1 := by
    intro s
    obtain ⟨_, _, heq⟩ := exited_cases s i failed
    rw [heq]
    rfl
  unfold reapSlot
  generalize range MAX_WORKERS = is
  refine valid_store fun s _ => ⟨hsame rfl, valid_read (fun _ => hsame rfl) fun s _ => ?_⟩
  split
  · trivial
  refine valid_atom fun s _ => ?_
  split
  · refine ⟨hsame (hexited s), Valid.map _ ?_⟩
    exact (guar_killAll (fun _ => hsame rfl) (fun _ _ => hsame rfl) is).valid fun _ _ => trivial
  refine ⟨hsame (hexited s), valid_read (fun _ => hsame rfl) fun s _ => ?_⟩
  split
  · trivial
  refine Valid.bind (((guar_spawnSlot i).mono fun _ _ => hsame).valid fun _ s => ?_)
  refine valid_atom fun s hR => ?_
  split
  next hlt =>
    refine ⟨fun hinv _ => ?_, Valid.map _ (valid_rollNext _ rfl)⟩
    exact .of_loop (hinv.roll (hinv.rolls (.inl hlt)) _ _) rfl rfl
  next => exact ⟨hsame rfl, trivial⟩

theorem valid_reapSlots (pid : Nat) (failed : Bool) (is : List Nat) (s : State) :
    (reapSlots cfg pid failed is).Valid (LoopRely cfg) (Guarantee cfg 0) (fun _ _ => True) s := by
  induction is generalizing s with
  | nil => exact valid_store fun s _ => ⟨SameRollout.guarantee rfl, trivial⟩
  | cons i is ih =>
    refine valid_read (fun _ => SameRollout.guarantee rfl) fun s _ => ?_
    split
    · refine Valid.bind ((valid_reapSlot i failed s).post fun goesOn s _ => ?_)
      cases goesOn with
      | true => exact ih s
      | false => trivial
    · exact ih s

theorem valid_reap (k : Nat) (s : State) :
    (reap cfg k).Valid (LoopRely cfg) (Guarantee cfg 0) (fun _ _ => True) s := by
  refine valid_atom fun s _ => ?_
  split
  · exact ⟨SameRollout.guarantee rfl, trivial⟩
  · exact ⟨SameRollout.guarantee rfl, valid_reapSlots _ _ _ _⟩

/-- What the loop knows when it has cleared the canary flag: its verdict is about the last
reload. -/
def Deciding (reload : Nat) (s : State) : Prop :=
  s.deciding = true ∧ s.canaryActive = false ∧ s.began = reload

variable {n : Nat}

theorem SameRollout.deciding (h : SameRollout s s') (hd : Deciding n s) : Deciding n s' :=
  ⟨(congrArg Rollout.deciding h).trans hd.1, (congrArg Rollout.canary h).trans hd.2.1,
    (congrArg Rollout.began h).trans hd.2.2⟩

theorem LoopRely.keeps_deciding (h : LoopRely cfg s s') (hd : Deciding n s) : Deciding n s' :=
  (h.same hd.1).deciding hd

theorem guarantee_undecided (s : State) : Guarantee cfg 0 s { s with deciding := false } := by
  intro hinv _
  exact .of_loop (hinv.decide (fun h => absurd h Bool.false_ne_true) (.inl rfl)) rfl rfl

theorem guarantee_decides (hs : s.canaryActive = true) :
    Guarantee cfg 0 s { s with deciding := true } := by
  intro hinv hspaced
  exact .of_loop (hinv.decide (fun _ => hinv.waits (.inl hs)) hspaced.2) rfl rfl

theorem valid_verifyGate (s : State) :
    (verifyGate cfg).Valid (LoopRely cfg) (Guarantee cfg 0) (fun _ _ => True) s := by
  refine valid_atom fun s _ => ?_
  split
  · exact ⟨SameRollout.guarantee rfl, trivial⟩
  next hs =>
  refine ⟨guarantee_decides (by simpa using hs), valid_atom fun s _ => ?_⟩
  split
  · exact ⟨guarantee_undecided s, trivial⟩
  refine ⟨SameRollout.guarantee rfl, valid_atom fun s _ => ?_⟩
  split
  · exact ⟨guarantee_undecided s, trivial⟩
  refine ⟨SameRollout.guarantee rfl, valid_read (fun _ => SameRollout.guarantee rfl) fun s _ => ?_⟩
  exact (guar_verifyVerdict (fun _ => SameRollout.guarantee rfl) _).valid fun _ _ => trivial

theorem valid_conclude {j : Judgement} (hs : Deciding j.reload s) :
    (conclude cfg j).Valid (LoopRely cfg) (Guarantee cfg 0) (fun _ _ => True) s := by
  unfold conclude
  split
  next hrolls =>
    refine valid_store fun s₁ hR => ⟨fun hinv _ => ?_, valid_store fun s₂ hR => ?_⟩
    · obtain ⟨hd, hc, hj⟩ := hR.keeps_deciding hs
      exact .of_loop (hinv.judge hd hc hj.symm fun _ => hrolls) rfl rfl
    · have h₂ : s₂.rolling = true := hR.rolling
      refine ⟨fun hinv _ => ?_, valid_rollNext _ h₂⟩
      exact .of_loop (hinv.roll (hinv.rolls (.inr h₂)) _ _) rfl rfl
  next =>
    refine valid_store fun s₁ hR => ⟨fun hinv _ => ?_, ?_⟩
    · obtain ⟨hd, hc, hj⟩ := hR.keeps_deciding hs
      have hstill : s₁.rolling = true → j.verdict.rolls = true :=
        fun hr => absurd (.inr hr) (hinv.not_rolling hd)
      exact .of_loop (hinv.judge hd hc hj.symm hstill) rfl rfl
    refine valid_read (fun _ => SameRollout.guarantee rfl) fun s₂ _ => ?_
    split
    · refine valid_store fun s₃ _ => ⟨SameRollout.guarantee rfl, valid_store fun s₄ _ => ?_⟩
      exact ⟨fun hinv _ => .of_loop (hinv.send (.inl rfl)) rfl rfl, trivial⟩
    · trivial

theorem valid_judge {gate : Gate} {reload : Nat} (hs : Deciding reload s) :
    (judge cfg gate reload).Valid (LoopRely cfg) (Guarantee cfg 0) (fun _ _ => True) s := by
  refine valid_read (fun _ => SameRollout.guarantee rfl) fun s₁ hR => ?_
  have h₁ := hR.keeps_deciding hs
  have hverdict : ∀ alive, (canaryVerdict cfg alive).Guar SameRollout :=
    guar_canaryVerdict SameRollout.refl
  split
  · exact valid_conclude h₁
  · refine Valid.bind (((hverdict _).keeps (fun _ _ h => h.keeps_deciding) (fun _ _ h => h.deciding)
      (fun _ _ => SameRollout.guarantee) h₁).post fun v s₂ h₂ => ?_)
    exact valid_conclude h₂

theorem valid_canaryGate (s : State) :
    (canaryGate cfg).Valid (LoopRely cfg) (Guarantee cfg 0) (fun _ _ => True) s := by
  refine Valid.bind ((valid_verifyGate s).post fun gate s _ => valid_atom fun s₁ hR₁ => ?_)
  split
  · exact ⟨guarantee_undecided s₁, trivial⟩
  next hs =>
  refine ⟨guarantee_decides (by simpa using hs), valid_atom fun s₂ hR₂ => ?_⟩
  split
  · exact ⟨guarantee_undecided s₂, trivial⟩
  have hd₂ : s₂.deciding = true := hR₂.deciding
  split
  · exact ⟨guarantee_undecided s₂, trivial⟩
  refine ⟨SameRollout.guarantee rfl, valid_atom fun s₃ hR₃ => ?_⟩
  have hd₃ : s₃.deciding = true := hR₃.deciding.trans hd₂
  refine ⟨fun hinv _ => .of_loop hinv.clear rfl rfl, valid_judge ⟨hd₃, rfl, ?_⟩⟩
  have hnone : s₃.starting = [] := hR₃.inv.alone.resolve_left (by simp [State.rollout, hd₃])
  refine (hR₃.inv.latest.resolve_right ?_).symm
  rintro ⟨v, hv⟩
  rw [show s₃.rollout.starting = [] from hnone] at hv
  cases hv

/-! ## Reloads -/

theorem ThreadRely.starts (h : ThreadRely cfg u s s') (hs : Starts u n s) : Starts u n s' :=
  ⟨(h.mine n).2 hs.1, fun m hm => hs.2 m ((h.mine m).1 hm)⟩

theorem Move.of_starts (hs : Starts u n s) (hs₀ : s.rollout.Inv cfg)
    (hinv : s'.rollout.Inv cfg) (hothers : ∀ x : Nat × Nat, x.1 ≠ u →
      (x ∈ s'.starting ↔ x ∈ s.starting)) (hactive : s.active ≤ s'.active)
    (hd : s'.deciding = s.deciding) (hr : s'.rolling = s.rolling) : Move cfg u s s' := by
  refine ⟨hinv, hothers, hactive, fun _ => ⟨hd, hr, fun hdec => ?_⟩⟩
  rcases hs₀.alone with hfalse | hnone
  · rw [show s.deciding = false from hfalse] at hdec
    cases hdec
  · exact absurd hnone (ne_nil_of_mem hs.1)

theorem valid_verifyReset {p : Prog State Unit} {Q : Unit → State → Prop} (hs : Starts u n s)
    (hp : ∀ s, Starts u n s → p.Valid (ThreadRely cfg u) (Guarantee cfg u) Q s) :
    (verifyReset cfg p).Valid (ThreadRely cfg u) (Guarantee cfg u) Q s := by
  unfold verifyReset
  split
  · refine valid_store fun s₁ hR₁ => ⟨SameRollout.guarantee rfl, valid_store fun s₂ hR₂ => ?_⟩
    refine ⟨SameRollout.guarantee rfl, valid_store fun s₃ hR₃ => ⟨SameRollout.guarantee rfl, ?_⟩⟩
    exact hp _ (hR₃.starts (hR₂.starts (hR₁.starts hs)))
  · exact hp s hs

theorem valid_canaryReload (hs : Starts u n s) :
    (canaryReload cfg u n).Valid (ThreadRely cfg u) (Guarantee cfg u)
      (fun _ s => Between u s) s := by
  have hsame : ∀ {s s' : State}, SameRollout s s' → Guarantee cfg u s s' := SameRollout.guarantee
  have hkeeps : ∀ s s', ThreadRely cfg u s s' → Starts u n s → Starts u n s' :=
    fun _ _ h => h.starts
  refine valid_verifyReset hs fun s hs => Valid.bind ((valid_fleetTotals hkeeps
    (fun _ => hsame rfl) 0 cfg.workers hs).post fun _ s hs => ?_)
  refine valid_store fun s₁ hR₁ => ⟨hsame rfl, valid_store fun s₂ hR₂ => ⟨hsame rfl, ?_⟩⟩
  refine valid_store fun s₃ hR₃ => ⟨hsame rfl, valid_store fun s₄ hR₄ => ⟨hsame rfl, ?_⟩⟩
  have h₃ := hR₄.starts (hR₃.starts (hR₂.starts (hR₁.starts hs)))
  refine valid_store fun s₄ hR₄ => ?_
  have h₄ := hR₄.starts h₃
  refine ⟨fun hinv _ => .of_starts h₄ hinv (hinv.activate h₄.1) (fun _ _ => .rfl)
    (Nat.le_max_left _ _) rfl rfl, valid_store fun s₅ hR₅ => ⟨hsame rfl, ?_⟩⟩
  refine valid_atom fun s₆ hR₆ => ?_
  have h₆ := hR₆.starts (hR₅.starts h₄)
  have hn₆ : n ≤ s₆.active :=
    Nat.le_trans (Nat.le_max_right _ _) (Nat.le_trans hR₅.active_le hR₆.active_le)
  split
  · refine ⟨hsame rfl, valid_store fun s₇ hR₇ => ?_⟩
    have h₇ := hR₇.starts h₆
    refine ⟨fun hinv _ => .of_starts h₇ hinv ?_ (fun _ hx => mem_started hx) (Nat.le_refl _) rfl
      rfl, fun _ m => notMem_started u m _⟩
    exact (hinv.send (.inl rfl)).start h₇.1 h₇.2 (Nat.le_trans hn₆ hR₇.active_le)
  · refine ⟨fun hinv _ => .of_starts h₆ hinv ?_ (fun _ hx => mem_started hx) (Nat.le_refl _) rfl
      rfl, fun _ m => notMem_started u m _⟩
    exact hinv.start h₆.1 h₆.2 hn₆

theorem valid_beginReload (hcanary : cfg.canary = true) (hu : u ≠ 0) (hs : Between u s) :
    (beginReload cfg u).Valid (ThreadRely cfg u) (Guarantee cfg u) (fun _ s => Between u s) s := by
  refine valid_atom fun s₁ hR => ⟨fun hinv hspaced => ?_, ?_⟩
  · obtain ⟨hcursor, hrolling⟩ := hspaced.1 (Nat.succ_ne_self _)
    have hd : s₁.deciding = false := hspaced.2.resolve_right (cons_ne_nil _ _)
    refine ⟨hinv.begin hcursor hrolling hd u, fun x hx => ?_, Nat.le_refl _, fun _ =>
      ⟨rfl, rfl, fun h => ?_⟩⟩
    · exact ⟨fun h => (mem_cons.1 h).resolve_left fun heq => hx (heq ▸ rfl), .tail _⟩
    · rw [hd] at h
      cases h
  · rw [if_pos hcanary]
    refine valid_canaryReload ⟨.head _, fun m hm => ?_⟩
    rcases mem_cons.1 hm with heq | hm
    · exact (Prod.mk.inj heq).2
    · exact absurd ((hR.mine m).1 hm) (hs hu m)

/-! ## Runs -/

theorem rollout_start : (State.start cfg).rollout.Inv cfg where
  only := by
    intro past hpast
    cases mem_singleton.1 hpast
    rfl
  rolls := by
    have hle : cfg.workers ≤ 18446744073709551615 := Nat.le_trans cfg.workers_le (by decide)
    rintro (hlt | hr)
    · exact absurd hlt (Nat.not_lt.2 hle)
    · cases hr
  waits := by
    rintro (h | h | h)
    · cases h
    · cases h
    · exact absurd rfl h
  alone := .inl rfl
  count := rfl
  active_le := Nat.le_refl _
  numbered x hx := by cases hx
  latest := .inl rfl

theorem contract (hcanary : cfg.canary = true) :
    Pool.Contract (code cfg) (outside cfg) Call.By (Spaced cfg) (fun s => s.rollout.Inv cfg) Between
      (Rely cfg) (Guarantee cfg) where
  refl t s hs := by
    cases t with
    | zero => exact ⟨hs, rfl, rfl, fun _ => rfl⟩
    | succ t => exact ⟨hs, fun _ => .rfl, Nat.le_refl _⟩
  trans t s s' s'' h h' := by
    cases t with
    | zero => exact LoopRely.trans h h'
    | succ t => exact ThreadRely.trans h h'
  calls t c s hc hs hb := by
    cases t with
    | zero =>
      have hloop : ∀ s, Between 0 s := fun s h => absurd rfl h
      cases c with
      | reload u | terminate u => exact absurd rfl hc.2
      | reap k => exact (valid_reap k s).post fun _ s _ => hloop s
      | fill => exact (guar_fill.mono fun _ _ => SameRollout.guarantee).valid fun _ => hloop
      | gate => exact (valid_canaryGate s).post fun _ s _ => hloop s
      | recycle =>
        have hguar : (recycleOverRss cfg).Guar SameRollout :=
          guar_recycleOverRss SameRollout.refl (fun _ _ => rfl) (fun _ _ => rfl) fun _ _ => rfl
        exact (hguar.mono fun _ _ => SameRollout.guarantee).valid fun _ => hloop
    | succ t =>
      cases c with
      | reload u =>
        obtain ⟨rfl, hu⟩ := hc
        exact valid_beginReload hcanary hu hb
      | terminate u =>
        have hguar : onTerminate.Guar SameRollout :=
          guar_onTerminate SameRollout.refl (fun _ _ => rfl) fun _ => rfl
        exact hguar.keeps (fun _ _ h => ThreadRely.between h) (fun _ _ h => h.between)
          (fun _ _ => SameRollout.guarantee) hb
      | reap k | fill | gate | recycle => cases hc
  moves t s s' hs hspaced hg := (hg hs hspaced).leaves
  env x t s hs _ := ((same_outside x s).move hs t).leaves

/-- **Only the canary.** With the canary, and if no reload begins while a roll or a verdict is under
way, a reload sends `SIGTERM` to slot 0 alone until a verdict about it lets the others roll. -/
theorem canary_alone (hcanary : cfg.canary = true) {es : List MasterEvent} (hes : Supervised es)
    (hspaced : Meets cfg (Spaced cfg) es) : OnlyCanary (masterAfter cfg es).shared.log :=
  ((contract hcanary).inv rollout_start (fun _ _ _ h => by cases h) hes.by hspaced).only

theorem three_le : 3 ≤ MAX_WORKERS := by decide

/-- Three web workers and the canary. -/
def threeWeb : Config := webOnly 3 true false three_le

/-- A reload of all three workers, from the first signal to the last new worker. -/
def wholeReload : List MasterEvent :=
  reloads 1 ++ [.env (.exit 1 false)] ++ round ++ [.env (.tick 5)] ++ round ++
    [.env (.exit 2 false)] ++ round ++ [.env (.exit 3 false)] ++ round

/-- The canary is rolled, and after its verdict the others are. -/
theorem canary_alone_whole : (masterAfter threeWeb wholeReload).shared.log =
      [.rolled 2, .rolled 1, .judged ⟨1, .inconclusive 0 1, [], []⟩, .rolled 0, .began] ∧
    OnlyCanary (masterAfter threeWeb wholeReload).shared.log :=
  ⟨by decide +kernel, canary_alone rfl (by decide +kernel) (by unfold Meets; decide +kernel)⟩

/-- Another reload begins when the canary is through and the worker in slot 1 drains. The exit of
its canary's predecessor rolls the worker in slot 2. -/
def overlapping : List MasterEvent :=
  reloads 1 ++ [.env (.exit 1 false)] ++ round ++ [.env (.tick 5)] ++ round ++
    reloads 2 ++ [.env (.exit 4 false)] ++ round

/-- **A worker other than the canary is rolled before the verdict.** The cursor of an earlier roll
is not reset when a reload begins. -/
theorem rolled_before_verdict : ¬ ∀ cfg es, cfg.canary = true → Supervised es →
    OnlyCanary (masterAfter cfg es).shared.log := by
  intro h
  have hnot : ¬ OnlyCanary (masterAfter threeWeb overlapping).shared.log := by decide +kernel
  exact hnot (h threeWeb overlapping rfl (by decide +kernel))

end Canary

end Askr.Supervisor
