import Askr.Queue.Store
import Mathlib.Data.Multiset.MapFold

/-!
# A process that dies inside an operation

A process is killed between two stores of a section: what it has made of them stays, and once its
slot lock is reclaimed everybody else goes on with that. `dies` is such a death of a call that runs
alone; `happen` is a schedule of calls in which callers die, and after which a new server may attach
the ring.

`crash_atomic`: a job is there or it is not, since `push` stores the id last and the other
operations do not touch what a job is (`push_part`, `same_of_ne`); and a job is ready again when its
last delay and its last visibility window are over (`Sound`), whatever its slot was used for before.
-/

namespace Askr.Queue

open Conc Prog Pool List

/-! ## Jobs -/

/-- What a job is: its id, the hash of its queue and its payload. -/
def Job.shown (e : Job) : Option (Nat × Nat × Bytes) :=
  if e.id = 0 then none else some (e.id, e.queueHash, e.payload)

def Ring.jobs (g : Config) (r : Ring) : Multiset (Nat × Nat × Bytes) :=
  ((range g.slots).filterMap fun i => (r.job i).shown : List _)

theorem Ring.jobs_congr {g : Config} {r r' : Ring} (h : ∀ i, (r'.job i).shown = (r.job i).shown) :
    r'.jobs g = r.jobs g := by
  simp only [Ring.jobs, h]

/-! ## Deaths -/

/-- The process died in the last section, after `n` of its stores. -/
def Mem.die (n : Nat) (s : Mem) : Mem := { s with now := s.before.apply (s.made.take n) }

/-- A call that runs alone dies after `k` sections and `n` stores of the next one. -/
def dies {α : Type} : Prog Mem α → Mem → Nat → Nat → Mem
  | .ret _, s, _, _ => s
  | .act u _, s, 0, n => (u s).die n
  | .act u rest, s, k + 1, n => dies (rest s) (u s) k n

/-- What happens to a ring: calls run, a caller dies in its next section, or the server is started
again and attaches the ring. -/
inductive Happening where
  | runs (e : Event Call Nat)
  | dies (t n : Nat)
  | restarts

def happen (g : Config) (P : Pool Mem Call Res) : Happening → Pool Mem Call Res
  | .runs e => P.exec (Mem.code g) Mem.tick e
  | .dies t n =>
    match P.thread t with
    | some (_, .act u _) =>
      { P with shared := (u P.shared).die n, thread := Function.update P.thread t none }
    | _ => P
  | .restarts => { P with shared := P.shared.attach g, thread := fun _ => none }

/-- The memory after a schedule with deaths, from a fresh mapping. -/
def afterDeaths (g : Config) (nowMs : Nat) (hs : List Happening) : Mem :=
  (Run.runs (happen g) (.start (.init g nowMs)) hs).shared

/-! ## What the stores keep -/

/-- The job of a slot is ready when what it was given is over. -/
def Timed (m : Image) : Prop :=
  ∀ i, (m.job i).id ≠ 0 →
    (m.job i).availableAt ≤ (m.given i).delay ∧ (m.job i).reservedUntil ≤ (m.given i).window

/-- The header is ours and the jobs are on time. -/
structure Sound (g : Config) (m : Image) : Prop where
  header : ∀ h, m.cells (.header h) = headerOf g h
  timed : Timed m

theorem Sound.apply {g : Config} {m : Image} (h : Sound g m) {i : Nat} {ws : List Store}
    (hws : Within i ws) (hi : ((m.apply ws).job i).id ≠ 0 →
      ((m.apply ws).job i).availableAt ≤ ((m.apply ws).given i).delay ∧
        ((m.apply ws).job i).reservedUntil ≤ ((m.apply ws).given i).window) :
    Sound g (m.apply ws) where
  header x := by rw [hws.header_eq, h.header]
  timed j := by
    by_cases hj : j = i
    · rw [hj]
      exact hi
    · rw [hws.job_of_ne hj, hws.given_of_ne hj]
      exact h.timed j

section
variable {g : Config} {m : Image} {i : Nat} {ws : List Store}

theorem push_part (m : Image) (i : Nat) (queue payload : Bytes) (qh id created available n : Nat) :
    (pushStores i queue payload qh id created available).take n =
        pushStores i queue payload qh id created available ∨
      ((m.apply ((pushStores i queue payload qh id created available).take n)).job i).id =
        (m.job i).id := by
  rcases Nat.lt_or_ge (pushFields i queue payload qh created available).length n with hn | hn
  · refine .inl (take_of_length_le ?_)
    rw [pushStores, length_append, length_map]
    exact hn
  · refine .inr (Image.cells_apply_of_ne fun w hw => ?_)
    rw [pushStores, take_append_of_le_length (by simpa using hn)] at hw
    obtain ⟨x, hx, rfl⟩ := mem_map.1 (mem_of_mem_take hw)
    obtain ⟨f, hf, hx⟩ := mem_pushFields hx
    rw [Store.plain, hx]
    simpa using hf

theorem given_pushStores (m : Image) (i : Nat) (queue payload : Bytes)
    (qh id created available : Nat) :
    (m.apply (pushStores i queue payload qh id created available)).given i = ⟨available, 0⟩ := by
  have hplain : ∀ (l : List (Cell × Nat)) (given : Nat → Ends),
      (l.map Store.plain).foldl Store.give given = given := by
    intro l
    induction l with
    | nil => exact fun given => rfl
    | cons w l ih => exact fun given => ih given
  rw [Image.apply, pushStores, foldl_append, hplain]
  simp [Store.give, Gift.give]

/-- A push cut off after any number of stores leaves the ring sound. -/
theorem Sound.push (h : Sound g m) (hfree : (m.job i).id = 0) (queue : Bytes) {payload : Bytes}
    (hlen : payload.length ≤ PAYLOAD_MAX) (qh id created available n : Nat) :
    Sound g (m.apply ((pushStores i queue payload qh id created available).take n)) := by
  refine h.apply ((within_pushStores ..).take n) fun hid => ?_
  rcases push_part m i queue payload qh id created available n with hall | hpart
  · rw [hall, job_pushStores m i queue hlen, given_pushStores, pushed]
    exact ⟨Nat.le_refl _, Nat.le_refl _⟩
  · exact absurd (hpart.trans hfree) hid

theorem Sound.reserve (h : Sound g m) (hid : (m.job i).id ≠ 0) (lease now visibility n : Nat) :
    Sound g (m.apply ((reserveStores i (m.job i) lease now visibility).take n)) := by
  refine h.apply ((within_reserveStores ..).take n) fun _ => ?_
  have htimed := h.timed i hid
  simp only [Image.job] at htimed
  rcases n with _ | _ | _ | _ | n <;>
    simp [reserveStores, Image.apply, Image.job, Store.write, Store.give, Gift.give, htimed]

theorem Sound.free (h : Sound g m) (n : Nat) : Sound g (m.apply ((freeStores i).take n)) := by
  refine h.apply ((within_freeStores ..).take n) fun hid => ?_
  rcases n with _ | n
  · exact h.timed i hid
  · simp [freeStores, Image.apply, Image.job, Store.write] at hid

theorem Sound.giveBack (h : Sound g m) (hid : (m.job i).id ≠ 0) (available n : Nat) :
    Sound g (m.apply ((giveBackStores available i).take n)) := by
  refine h.apply ((within_giveBackStores ..).take n) fun _ => ?_
  have htimed := h.timed i hid
  simp only [Image.job] at htimed
  rcases n with _ | _ | _ | n <;>
    simp [giveBackStores, Image.apply, Image.job, Store.write, Store.give, Gift.give, htimed]

/-! ## What is shown of a part -/

def Same (m m' : Image) : Prop := ∀ j, (m'.job j).shown = (m.job j).shown

theorem same_of_ne (h : ∀ w ∈ ws, ∀ j, w.cell ≠ .job j .id ∧ w.cell ≠ .job j .queueHash ∧
    w.cell ≠ .job j .payloadLen ∧ ∀ b, w.cell ≠ .job j (.payload b)) : Same m (m.apply ws) := by
  intro j
  have hpay : Cells.bytes (m.apply ws).cells (fun b => .job j (.payload b)) =
      Cells.bytes m.cells fun b => .job j (.payload b) :=
    funext fun n => Cells.bytes_congr (fun b =>
      Image.cells_apply_of_ne fun w hw => (h w hw j).2.2.2 b) n
  rw [Job.shown, Job.shown, Image.job, Image.job, hpay,
    Image.cells_apply_of_ne fun w hw => (h w hw j).1,
    Image.cells_apply_of_ne fun w hw => (h w hw j).2.1,
    Image.cells_apply_of_ne fun w hw => (h w hw j).2.2.1]

theorem Within.same (h : Within i ws) (hi : ((m.apply ws).job i).shown = (m.job i).shown) :
    Same m (m.apply ws) := by
  intro j
  by_cases hj : j = i
  · rw [hj, hi]
  · rw [h.job_of_ne hj]

/-- A section that can be cut short anywhere: the memory stays sound, and the jobs are those before
it or those after it. -/
structure Cuttable (g : Config) (m : Image) (ws : List Store) : Prop where
  sound : Sound g m → ∀ n, Sound g (m.apply (ws.take n))
  same : ∀ n, Same m (m.apply (ws.take n)) ∨ m.apply (ws.take n) = m.apply ws

theorem cuttable_push (hfree : (m.job i).id = 0) (queue : Bytes) {payload : Bytes}
    (hlen : payload.length ≤ PAYLOAD_MAX) (qh id created available : Nat) :
    Cuttable g m (pushStores i queue payload qh id created available) where
  sound h n := h.push hfree queue hlen qh id created available n
  same n := by
    rcases push_part m i queue payload qh id created available n with hall | hpart
    · rw [hall]
      exact .inr rfl
    · refine .inl (((within_pushStores ..).take n).same ?_)
      rw [Job.shown, Job.shown, if_pos (hpart.trans hfree), if_pos hfree]

theorem cuttable_reserve (hid : (m.job i).id ≠ 0) (lease now visibility : Nat) :
    Cuttable g m (reserveStores i (m.job i) lease now visibility) where
  sound h n := h.reserve hid lease now visibility n
  same n := .inl (same_of_ne fun w hw j => by
    have := mem_of_mem_take hw
    simp only [reserveStores, mem_cons, not_mem_nil, or_false] at this
    rcases this with rfl | rfl | rfl | rfl <;> simp)

theorem cuttable_free : Cuttable g m (freeStores i) where
  sound h n := h.free n
  same n := by
    rcases n with _ | n
    · exact .inl fun j => rfl
    · exact .inr (by rw [freeStores, take_succ_cons, take_nil])

theorem cuttable_giveBack (hid : (m.job i).id ≠ 0) (available : Nat) :
    Cuttable g m (giveBackStores available i) where
  sound h n := h.giveBack hid available n
  same n := .inl (same_of_ne fun w hw j => by
    have := mem_of_mem_take hw
    simp only [giveBackStores, mem_cons, not_mem_nil, or_false] at this
    rcases this with rfl | rfl | rfl <;> simp)

theorem cuttable_quiet (h : ∀ w ∈ ws, w.cell = .nextId ∧ w.gift = none) : Cuttable g m ws where
  sound hs n := by
    have hw : ∀ i, Within i (ws.take n) := fun i =>
      { slot := fun w hw j f heq => by
          rw [(h w (mem_of_mem_take hw)).1] at heq
          cases heq
        header := fun w hw x heq => by
          rw [(h w (mem_of_mem_take hw)).1] at heq
          cases heq
        gift := fun w hw j gift heq => by
          rw [(h w (mem_of_mem_take hw)).2] at heq
          cases heq }
    refine ⟨fun x => by rw [(hw 0).header_eq, hs.header], fun j => ?_⟩
    rw [(hw (j + 1)).job_of_ne (Nat.ne_of_lt (Nat.lt_succ_self j)),
      (hw (j + 1)).given_of_ne (Nat.ne_of_lt (Nat.lt_succ_self j))]
    exact hs.timed j
  same n := .inl (same_of_ne fun w hw j => by simp [(h w (mem_of_mem_take hw)).1])

theorem same_quiet (h : ∀ w ∈ ws, w.cell = .nextId ∧ w.gift = none) : Same m (m.apply ws) :=
  same_of_ne fun w hw j => by simp [(h w hw).1]

end

/-! ## Programs -/

section
variable {g : Config} {α β : Type}

/-- The section from `s` to `s'` has made the stores `ws`. -/
structure Made (s s' : Mem) (ws : List Store) : Prop where
  now : s'.now = s.now.apply ws
  before : s'.before = s.now
  made : s'.made = ws

/-- The section from `s` to `s'` can be cut short, and if it changes the jobs it is the last one. -/
def Section (g : Config) (s s' : Mem) (p : Prog Mem α) : Prop :=
  ∃ ws, Made s s' ws ∧ Cuttable g s.now ws ∧ ((∃ r, p = .ret r) ∨ Same s.now s'.now)

/-- Every section of the program is such a one. -/
def Crashable (g : Config) : Prog Mem α → Prop
  | .ret _ => True
  | .act u rest => ∀ s, Section g s (u s) (rest s) ∧ Crashable g (rest s)

theorem Crashable.map {p : Prog Mem α} (h : Crashable g p) (f : α → β) : Crashable g (p.map f) := by
  induction p with
  | ret a => trivial
  | act u next ih =>
    intro s
    obtain ⟨⟨ws, hmade, hcut, hlast⟩, hnext⟩ := h s
    refine ⟨⟨ws, hmade, hcut, hlast.imp_left ?_⟩, ih s hnext⟩
    rintro ⟨r, hr⟩
    exact ⟨f r, congrArg (Prog.map f) hr⟩

theorem crashable_atom {f : Mem → Mem × Prog Mem α}
    (h : ∀ s, Section g s (f s).1 (f s).2 ∧ Crashable g (f s).2) : Crashable g (.atom f) := h

theorem made_store (s : Mem) (ws : List Store) : Made s (s.store ws) ws := ⟨rfl, rfl, rfl⟩

theorem made_lane (s : Mem) (ws : List Store) (lane : Nat → Lane) :
    Made s { s.store ws with lane } ws := ⟨rfl, rfl, rfl⟩

theorem section_quiet {s s' : Mem} (h : Made s s' []) (p : Prog Mem α) : Section g s s' p := by
  refine ⟨[], h, cuttable_quiet (by simp), .inr ?_⟩
  rw [h.now]
  exact fun j => rfl

theorem section_last {s s' : Mem} {ws : List Store} (h : Made s s' ws) (hcut : Cuttable g s.now ws)
    (r : α) : Section g s s' (.ret r) := ⟨ws, h, hcut, .inl ⟨r, rfl⟩⟩

theorem crashable_pushScan (queue : Bytes) {payload : Bytes} (hlen : payload.length ≤ PAYLOAD_MAX)
    (qh id created available : Nat) (w : List Nat) :
    Crashable g (Mem.pushScan queue payload qh id created available w) := by
  induction w with
  | nil => trivial
  | cons i w ih =>
    refine crashable_atom fun s => ?_
    by_cases hfree : (s.now.job i).id = 0
    · rw [if_pos hfree]
      exact ⟨section_last (made_store s _) (cuttable_push hfree queue hlen ..) _, trivial⟩
    · rw [if_neg hfree]
      exact ⟨section_quiet (made_store s _) _, ih⟩

theorem crashable_push (queue payload : Bytes) (delay : Nat) :
    Crashable g (Mem.push g queue payload delay) := by
  rw [Mem.push]
  split
  · trivial
  · split
    · trivial
    · rename_i hlen
      refine crashable_atom fun s => ⟨⟨_, made_store s _, cuttable_quiet (by simp),
        .inr (same_quiet (by simp))⟩,
      crashable_atom fun s' => ⟨section_quiet (made_store s' _) _, ?_⟩⟩
      exact crashable_pushScan queue (Nat.not_lt.1 hlen) _ _ _ _ _

theorem crashable_popTake {want : Nat} (hwant : want ≠ 0) (qh : Nat) (queue : Bytes)
    (now visibility i : Nat) : Crashable g (Mem.popTake qh queue now visibility i want) := by
  refine crashable_atom fun s => ?_
  by_cases hid : (s.now.job i).id ≠ want
  · simp only [if_pos hid]
    exact ⟨section_quiet (made_store s _) _, trivial⟩
  · simp only [if_neg hid]
    by_cases hready : (!(s.now.job i).ready now) = true
    · simp only [if_pos hready]
      exact ⟨section_quiet (made_store s _) _, trivial⟩
    · simp only [if_neg hready]
      refine ⟨section_last (made_lane s _ _) (cuttable_reserve ?_ _ _ _) _, trivial⟩
      rw [not_not.1 hid]
      exact hwant

theorem crashable_popScan (qh : Nat) (queue : Bytes) (now visibility : Nat) {w : List Nat}
    (hw : ∀ i ∈ w, i < g.slots) {best : Option (Nat × Nat × Nat)} (hbest : Candidate g best) :
    Crashable g (Mem.popScan qh queue now visibility w best) := by
  induction w generalizing best with
  | nil =>
    cases best with
    | none => trivial
    | some b => exact crashable_popTake (hbest b.1 b.2.1 b.2.2 rfl).2 qh queue now visibility b.1
  | cons i w ih =>
    refine crashable_atom fun s => ⟨section_quiet (made_store s _) _,
      ih (fun j hj => hw j (.tail _ hj)) ?_⟩
    split
    · exact hbest
    · rename_i hjob
      split
      exacts [hbest.better (hw i (.head _)) fun h => hjob (.inl h), hbest]

theorem crashable_pop (queue : Bytes) (visibility : Nat) :
    Crashable g (Mem.pop g queue visibility) := by
  rw [Mem.pop]
  split
  · trivial
  · refine crashable_atom fun s => ⟨section_quiet (made_store s _) _,
      crashable_atom fun s' => ⟨section_quiet (made_lane s' _ _) _, ?_⟩⟩
    exact crashable_popScan _ _ _ _ (fun i hi => mem_range.1 hi) fun i a want h => by cases h

theorem crashable_leaseScan {stores : Nat → List Store} {app : Option Ns.App} {lease : Nat}
    (h : ∀ (m : Image) i, (m.job i).id ≠ 0 → Cuttable g m (stores i)) (w : List Nat) :
    Crashable g (Mem.leaseScan app lease stores w) := by
  induction w with
  | nil => trivial
  | cons i w ih =>
    refine crashable_atom fun s => ?_
    by_cases hslot : (s.now.job i).id ≠ 0 ∧ (s.now.job i).lease = lease
    · rw [if_pos hslot]
      split
      · exact ⟨section_last (made_store s _) (h _ i hslot.1) _, trivial⟩
      · exact ⟨section_quiet (made_store s _) _, trivial⟩
    · rw [if_neg hslot]
      exact ⟨section_quiet (made_store s _) _, ih⟩

theorem crashable_delete (app : Option Ns.App) (lease : Nat) :
    Crashable g (Mem.delete g app lease) := by
  rw [Mem.delete]
  split
  · trivial
  · split
    · trivial
    · exact crashable_leaseScan (fun m i _ => cuttable_free) _

theorem crashable_release (app : Option Ns.App) (lease delay : Nat) :
    Crashable g (Mem.release g app lease delay) := by
  rw [Mem.release]
  split
  · trivial
  · split
    · trivial
    · refine crashable_atom fun s => ⟨section_quiet (made_store s _) _, ?_⟩
      exact crashable_leaseScan (fun m i hid => cuttable_giveBack hid _) _

theorem crashable_code (c : Call) : Crashable g (Mem.code g c) := by
  obtain ⟨app, req⟩ := c
  cases req with
  | push queue payload delay => exact (crashable_push _ payload delay).map _
  | pop queue visibility => exact (crashable_pop _ visibility).map _
  | delete lease => exact (crashable_delete app lease).map _
  | release lease delay => exact (crashable_release app lease delay).map _

/-! ## Calls that die -/

theorem Made.die {s s' : Mem} {ws : List Store} (h : Made s s' ws) (n : Nat) :
    (s'.die n).now = s.now.apply (ws.take n) := by
  rw [Mem.die, h.before, h.made]

theorem Same.jobs {s s' : Mem} (h : Same s.now s'.now) : s'.ring.jobs g = s.ring.jobs g :=
  Ring.jobs_congr h

/-- **A call that dies leaves the jobs as they were, or as it would have left them.** -/
theorem Crashable.jobs {p : Prog Mem α} (h : Crashable g p) (s : Mem) (k n : Nat) :
    (dies p s k n).ring.jobs g = s.ring.jobs g ∨
      (dies p s k n).ring.jobs g = (p.run s).1.ring.jobs g := by
  induction p generalizing s k with
  | ret a => exact .inl rfl
  | act u next ih =>
    obtain ⟨⟨ws, hmade, hcut, hlast⟩, hnext⟩ := h s
    rcases hlast with ⟨r, hr⟩ | hsame
    · have hrun : ((Prog.act u next).run s).1 = u s := by rw [run_act, hr, run_ret]
      cases k with
      | zero =>
        rw [hrun, dies]
        rcases hcut.same n with hpart | hall
        · exact .inl (Same.jobs (by rw [hmade.die]; exact hpart))
        · refine .inr (Same.jobs fun j => ?_)
          rw [hmade.die, hall, hmade.now]
      | succ k =>
        rw [hrun, dies, hr]
        exact .inr rfl
    · cases k with
      | zero =>
        refine .inl (Same.jobs ?_)
        rw [dies, hmade.die]
        rcases hcut.same n with hpart | hall
        · exact hpart
        · rwa [hall, ← hmade.now]
      | succ k =>
        rw [dies, run_act, ← hsame.jobs]
        exact ih s hnext (u s) k

theorem Crashable.sound {p : Prog Mem α} (h : Crashable g p) {s : Mem} (hs : Sound g s.now)
    (k n : Nat) : Sound g (dies p s k n).now := by
  induction p generalizing s k with
  | ret a => exact hs
  | act u next ih =>
    obtain ⟨⟨ws, hmade, hcut, -⟩, hnext⟩ := h s
    cases k with
    | zero =>
      rw [dies, hmade.die]
      exact hcut.sound hs n
    | succ k =>
      refine ih s hnext ?_ k
      rw [hmade.now, ← take_length (l := ws)]
      exact hcut.sound hs _

/-! ## Schedules with deaths -/

/-- The memory is sound, and every call in flight can be cut short. -/
structure Alive (g : Config) (P : Pool Mem Call Res) : Prop where
  sound : Sound g P.shared.now
  crashable : ∀ t c p, P.thread t = some (c, p) → Crashable g p

theorem Crashable.next {p : Prog Mem α} (h : Crashable g p) {s : Mem} (hs : Sound g s.now) :
    Sound g (p.next s).1.now ∧ Crashable g (p.next s).2 := by
  cases p with
  | ret a => exact ⟨hs, trivial⟩
  | act u next =>
    obtain ⟨⟨ws, hmade, hcut, -⟩, hnext⟩ := h s
    refine ⟨?_, hnext⟩
    rw [next_act, hmade.now, ← take_length (l := ws)]
    exact hcut.sound hs _

/-- One event of the calls. -/
theorem Alive.exec {P : Pool Mem Call Res} (h : Alive g P) (e : Event Call Nat) :
    Alive g (P.exec (Mem.code g) Mem.tick e) := by
  rcases exec_cases (Mem.code g) Mem.tick P e with
    he | ⟨t, c, -, he⟩ | ⟨t, c, p, -, ht, he⟩ | ⟨x, -, he⟩
  · rwa [he]
  · rw [he]
    exact ⟨by rw [settle_shared]; exact h.sound,
      forall_settle (fun _ => crashable_code c) fun t' c' p' _ => h.crashable t' c' p'⟩
  · obtain ⟨hsound, hnext⟩ := (h.crashable t c p ht).next h.sound
    rw [he]
    exact ⟨by rw [settle_shared]; exact hsound,
      forall_settle (fun _ => hnext) fun t' c' p' _ => h.crashable t' c' p'⟩
  · rw [he]
    exact ⟨h.sound, h.crashable⟩

theorem attach_now {s : Mem} (h : Sound g s.now) : (s.attach g).now = s.now := by
  have hnone : headerMismatch g s.now.cells = none := by
    rw [headerMismatch, find?_eq_none]
    intro x _
    simp [h.header x]
  rw [Mem.attach, hnone]

theorem Alive.happen {P : Pool Mem Call Res} (h : Alive g P) (x : Happening) :
    Alive g (Queue.happen g P x) := by
  cases x with
  | runs e => exact h.exec e
  | dies t n =>
    rw [Queue.happen]
    split
    · rename_i c u next ht
      obtain ⟨⟨ws, hmade, hcut, -⟩, -⟩ := h.crashable t c _ ht P.shared
      refine ⟨?_, fun t' c' p' ht' => ?_⟩
      · rw [hmade.die]
        exact hcut.sound h.sound n
      · by_cases htt : t' = t
        · simp [htt] at ht'
        · simp only [Function.update_of_ne htt] at ht'
          exact h.crashable t' c' p' ht'
    · exact h
  | restarts =>
    refine ⟨?_, fun t c p ht => by cases ht⟩
    change Sound g (P.shared.attach g).now
    rw [attach_now h.sound]
    exact h.sound

theorem alive_start (nowMs : Nat) : Alive g (.start (.init g nowMs)) where
  sound := ⟨fun _ => rfl, fun i hid => absurd rfl hid⟩
  crashable t c p h := by cases h

/-- **Every memory that a schedule with deaths leads to is sound.** -/
theorem sound_afterDeaths (nowMs : Nat) (hs : List Happening) :
    Sound g (afterDeaths g nowMs hs).now :=
  (Run.runs_inv (I := Alive g) (fun _ x h => h.happen x) hs (alive_start nowMs)).sound

end

/-- A job is ready when the delay and the window it was given are over. -/
theorem Sound.ready {g : Config} {m : Image} (h : Sound g m) {i : Nat} (hid : (m.job i).id ≠ 0)
    {now : Nat} (hdelay : (m.given i).delay ≤ now) (hwindow : (m.given i).window ≤ now) :
    (m.job i).ready now = true := by
  obtain ⟨havail, hres⟩ := h.timed i hid
  simp only [Job.ready, Bool.and_eq_true, Bool.or_eq_true, decide_eq_true_eq]
  exact ⟨havail.trans hdelay, .inr (hres.trans hwindow)⟩

/-- **The operations are crash-atomic.** A call dies at any store, in any ring that a schedule with
deaths leads to, and the ring is attached again. Then the jobs are those before the call or those
that the call would have left, and every one of them is ready when the last delay and the last
visibility window it was given are over. -/
theorem crash_atomic (g : Config) (nowMs : Nat) (hs : List Happening) (c : Call) (k n : Nat) :
    let s := afterDeaths g nowMs hs
    let s' := (dies (Mem.code g c) s k n).attach g
    (s'.ring.jobs g = s.ring.jobs g ∨ s'.ring.jobs g = ((code g c).run s.ring).1.jobs g) ∧
      ∀ i, (s'.ring.job i).id ≠ 0 → ∀ now, (s'.now.given i).delay ≤ now →
        (s'.now.given i).window ≤ now → (s'.ring.job i).ready now = true := by
  intro s s'
  have hcode : Crashable g (Mem.code g c) := crashable_code c
  have hsound := hcode.sound (sound_afterDeaths nowMs hs) k n
  have hnow : s'.now = (dies (Mem.code g c) s k n).now := attach_now hsound
  refine ⟨?_, fun i hid now hdelay hwindow => ?_⟩
  · have hjobs : s'.ring.jobs g = (dies (Mem.code g c) s k n).ring.jobs g :=
      Ring.jobs_congr fun j => by rw [Mem.ring, Mem.ring, hnow]
    rw [hjobs, ← (lifts_code c).run s]
    exact hcode.jobs s k n
  · have hs' : Sound g s'.now := hnow ▸ hsound
    exact hs'.ready hid hdelay hwindow

end Askr.Queue
