import Askr.Queue.Delayed
import Askr.Queue.Watch
import Mathlib.Data.Finset.Card
import Mathlib.Data.Finset.Range

/-!
# What the watchdog knows of the workers

The lane table has no way to forget a queue, so a queue has at most one entry, with no free entry in
front of it on its walk (`Claimed`), and the stamp in it is the time of the queue's last pop
(`Told`), as long as the queues that are popped fit into the table and their hashes differ. If what
is stored of the names tells them apart as well (`Tellable`), a warning says that a queue is not
drained exactly when it was popped within the last minute (`watchdog_truthful`).

A queue that finds the table full counts as one that nobody asks for
(`watchdog_accuses_polled_queue`).
-/

namespace Askr.Queue

open Conc Prog Probe Function List

variable {g : Config} {names : List Bytes} {lane : Nat → Lane} {s : Ring} {n : Bytes}

/-! ## The lane table -/

/-- The hash a lane is kept under: `0` marks a free entry. -/
def Config.laneHash (g : Config) (name : Bytes) : Nat := if g.hash name = 0 then 1 else g.hash name

theorem Config.laneHash_ne_zero (g : Config) (name : Bytes) : g.laneHash name ≠ 0 := by
  rw [laneHash]
  split
  · decide
  · rename_i h
    exact h

theorem mem_laneProbe (qh : Nat) {i : Nat} (hi : i < LANES) : i ∈ laneProbe qh :=
  mem_pushProbe_of_lt qh hi

theorem lt_of_mem_laneProbe {qh i : Nat} (hi : i ∈ laneProbe qh) : i < LANES := by
  obtain ⟨p, -, rfl⟩ := mem_map.1 hi
  exact Nat.mod_lt _ (by decide)

/-- **The table holds lanes of the queues `names`**, each where its walk finds it. -/
structure Claimed (g : Config) (names : List Bytes) (lane : Nat → Lane) : Prop where
  own : ∀ i < LANES, (lane i).hash ≠ 0 →
    ∃ n ∈ names, (lane i).hash = g.laneHash n ∧ (lane i).name = n.take QUEUE_NAME_MAX
  place : ∀ i < LANES, (lane i).hash ≠ 0 → ∀ j ∈ passed (laneProbe (lane i).hash) i,
    (lane j).hash ≠ 0 ∧ (lane j).hash ≠ (lane i).hash

theorem Claimed.hash_inj (h : Claimed g names lane) {i j : Nat} (hi : i < LANES) (hj : j < LANES)
    (hne : (lane i).hash ≠ 0) (heq : (lane i).hash = (lane j).hash) : i = j := by
  rcases mem_passed_or (mem_laneProbe (lane i).hash hi) (mem_laneProbe _ hj) with hij | hij | hji
  · exact hij
  · exact absurd heq (h.place j hj (heq ▸ hne) i (heq ▸ hij)).2
  · exact absurd heq.symm (h.place i hi hne j hji).2

theorem Claimed.exists_lane (h : Claimed g names lane) (hlen : names.length ≤ LANES)
    (hn : n ∈ names) : ∃ i < LANES, (lane i).hash = g.laneHash n ∨ (lane i).hash = 0 := by
  by_contra hno
  push Not at hno
  have hown : ∀ i, ∃ m, i < LANES → m ∈ names ∧ (lane i).hash = g.laneHash m := by
    intro i
    by_cases hi : i < LANES
    · obtain ⟨m, hm, hhash, -⟩ := h.own i hi (hno i hi).2
      exact ⟨m, fun _ => ⟨hm, hhash⟩⟩
    · exact ⟨[], fun hlt => absurd hlt hi⟩
  choose owner howner using hown
  have hle : (Finset.range LANES).card ≤ (names.toFinset.erase n).card := by
    refine Finset.card_le_card_of_injOn owner (fun i hi => ?_) fun i hi j hj heq => ?_
    · have hi := Finset.mem_range.1 hi
      refine Finset.mem_erase.2 ⟨fun heq => ?_, mem_toFinset.2 (howner i hi).1⟩
      exact (hno i hi).1 (heq ▸ (howner i hi).2)
    · have hi := Finset.mem_range.1 hi
      have hj := Finset.mem_range.1 hj
      refine h.hash_inj hi hj (hno i hi).2 ?_
      rw [(howner i hi).2, (howner j hj).2, heq]
  have hlt : (names.toFinset.erase n).card < names.toFinset.card :=
    Finset.card_erase_lt_of_mem (mem_toFinset.2 hn)
  have hcard : names.toFinset.card ≤ names.length := toFinset_card_le names
  rw [Finset.card_range] at hle
  omega

/-- **The lane of a queue is found and changed**, and claimed if the queue had none. -/
theorem Claimed.markLanes (h : Claimed g names lane) (hlen : names.length ≤ LANES)
    (hinj : Set.InjOn g.laneHash {n | n ∈ names}) (hn : n ∈ names) (f : Lane → Lane) : ∃ i < LANES,
    ((lane i).hash = g.laneHash n ∨ (lane i).hash = 0 ∧ ∀ j < LANES, (lane j).hash ≠ g.laneHash n) ∧
    (∀ j ∈ passed (laneProbe (g.laneHash n)) i, (lane j).hash ≠ 0 ∧ (lane j).hash ≠ g.laneHash n) ∧
    markLanes lane (g.hash n) n f = update lane i
      (f { lane i with hash := g.laneHash n, name := n.take QUEUE_NAME_MAX }) := by
  obtain ⟨k, hk, hfits⟩ := h.exists_lane hlen hn
  cases hfind : (laneProbe (g.laneHash n)).find? fun i =>
      (lane i).hash = g.laneHash n || (lane i).hash = 0 with
  | none =>
    have hno := find?_eq_none.1 hfind k (mem_laneProbe _ hk)
    simp only [Bool.or_eq_true, decide_eq_true_eq] at hno
    exact absurd hfits hno
  | some i =>
    obtain ⟨hmem, hpi, hfirst⟩ := find?_eq_some_iff.1 hfind
    have hi : i < LANES := lt_of_mem_laneProbe hmem
    have hpre : ∀ j ∈ passed (laneProbe (g.laneHash n)) i,
        (lane j).hash ≠ 0 ∧ (lane j).hash ≠ g.laneHash n := by
      intro j hj
      have hno := hfirst j hj
      simp only [Bool.or_eq_true, decide_eq_true_eq, not_or] at hno
      exact ⟨hno.2, hno.1⟩
    have hfor : laneFor lane (g.hash n) n =
        if (lane i).hash = g.laneHash n then (lane, some i)
        else (update lane i
          { lane i with hash := g.laneHash n, name := n.take QUEUE_NAME_MAX }, some i) := by
      simp only [laneFor]
      rw [show (if g.hash n = 0 then 1 else g.hash n) = g.laneHash n from rfl, hfind]
    simp only [Bool.or_eq_true, decide_eq_true_eq] at hpi
    by_cases hown : (lane i).hash = g.laneHash n
    · obtain ⟨m, hm, hhash, hname⟩ := h.own i hi (hown ▸ g.laneHash_ne_zero n)
      obtain rfl : m = n := hinj hm hn (hhash.symm.trans hown)
      refine ⟨i, hi, .inl hown, hpre, ?_⟩
      rw [Queue.markLanes, hfor, if_pos hown, ← hown, ← hname]
    · have hfree := hpi.resolve_left hown
      refine ⟨i, hi, .inr ⟨hfree, fun j hj hhash => ?_⟩, hpre, ?_⟩
      · have hbehind := mem_passed_of_find? hfind (mem_laneProbe _ hj) (by simp [hhash])
        rcases hbehind with rfl | hbehind
        · exact hown hhash
        · exact (h.place j hj (hhash ▸ g.laneHash_ne_zero n) i (hhash ▸ hbehind)).1 hfree
      · rw [Queue.markLanes, hfor, if_neg hown]
        simp only [update_self, update_idem]

theorem Claimed.update (h : Claimed g names lane) (hn : n ∈ names) {i : Nat} {l : Lane}
    (hhash : l.hash = g.laneHash n) (hname : l.name = n.take QUEUE_NAME_MAX)
    (hold : (lane i).hash = g.laneHash n ∨ (lane i).hash = 0)
    (hpre : ∀ j ∈ passed (laneProbe (g.laneHash n)) i,
      (lane j).hash ≠ 0 ∧ (lane j).hash ≠ g.laneHash n) : Claimed g names (update lane i l) := by
  refine ⟨fun k hk hne => ?_, fun k hk hne j hj => ?_⟩
  · by_cases hki : k = i
    · rw [hki, update_self]
      exact ⟨n, hn, hhash, hname⟩
    · rw [update_of_ne hki] at hne ⊢
      exact h.own k hk hne
  · by_cases hki : k = i
    · subst hki
      rw [update_self, hhash] at hj ⊢
      have hjk : j ≠ k := fun heq => not_mem_passed (heq ▸ hj)
      rw [update_of_ne hjk]
      exact hpre j hj
    · rw [update_of_ne hki] at hne hj ⊢
      have hplace := h.place k hk hne j hj
      by_cases hji : j = i
      · subst hji
        rw [update_self, hhash, ← hold.resolve_right hplace.1]
        exact hplace
      · rw [update_of_ne hji]
        exact hplace

/-! ## Pops and stamps -/

/-- A worker asked for a job. -/
structure Poll where
  atMs : Nat
  app : Option Ns.App
  queue : Bytes

def Poll.name (p : Poll) : Bytes := Ns.key p.app p.queue

/-- The pop among the calls made at a time. -/
def Call.polls (now : Nat) (c : Call) : List Poll :=
  match c.req with
  | .pop queue _ => [⟨now, c.app, queue⟩]
  | _ => []

/-- The pops of a run that starts at the time `now`. -/
def polls : Nat → List Op → List Poll
  | _, [] => []
  | now, .call c :: es => c.polls now ++ polls now es
  | now, .tick ms :: es => polls (now + ms) es

theorem le_atMs_of_mem_polls {now : Nat} {es : List Op} {p : Poll} (hp : p ∈ polls now es) :
    now ≤ p.atMs := by
  induction es generalizing now with
  | nil => cases hp
  | cons e es ih =>
    cases e with
    | tick ms => exact (Nat.le_add_right now ms).trans (ih hp)
    | call c =>
      rcases mem_append.1 hp with hp | hp
      · rw [Call.polls] at hp
        split at hp
        · rw [mem_singleton.1 hp]
        · cases hp
      · exact ih hp

/-- The last pop of the queue was at `t`. -/
def LastPoll (ps : List Poll) (n : Bytes) (t : Nat) : Prop :=
  (∃ p ∈ ps, p.name = n ∧ p.atMs = t) ∧ ∀ p ∈ ps, p.name = n → p.atMs ≤ t

/-- **The table tells when each queue was popped last**, after the pops `ps`. -/
structure Told (g : Config) (names : List Bytes) (ps : List Poll) (lane : Nat → Lane) : Prop where
  claimed : Claimed g names lane
  stamp : ∀ i < LANES, ∀ n ∈ names, (lane i).hash = g.laneHash n →
    LastPoll ps n (lane i).lastPolledMs
  known : ∀ p ∈ ps, p.name ∈ names
  told : ∀ p ∈ ps, ∃ i < LANES, (lane i).hash = g.laneHash p.name

theorem told_init (g : Config) (names : List Bytes) (nowMs : Nat) :
    Told g names [] (Ring.init nowMs).lane :=
  ⟨⟨fun _ _ h => absurd rfl h, fun _ _ h => absurd rfl h⟩,
    fun _ _ n _ h => absurd h.symm (g.laneHash_ne_zero n), fun _ h => absurd h (by simp),
    fun _ h => absurd h (by simp)⟩

section
variable {ps ps' : List Poll} (h : Told g names ps lane) (hlen : names.length ≤ LANES)
  (hinj : Set.InjOn g.laneHash {n | n ∈ names}) (hn : n ∈ names)
include h hlen hinj hn

/-- The lane of one queue is marked, and the pops of the other ones stay as they are. -/
theorem Told.mark {f : Lane → Lane} (hf : ∀ l, (f l).hash = l.hash ∧ (f l).name = l.name)
    (hother : ∀ p, p.name ≠ n → (p ∈ ps' ↔ p ∈ ps))
    (hnew : ∀ i < LANES, ((lane i).hash = g.laneHash n ∨
      (lane i).hash = 0 ∧ ∀ j < LANES, (lane j).hash ≠ g.laneHash n) → LastPoll ps' n
        (f { lane i with hash := g.laneHash n, name := n.take QUEUE_NAME_MAX }).lastPolledMs) :
    Told g names ps' (markLanes lane (g.hash n) n f) := by
  obtain ⟨i, hi, hcase, hpre, heq⟩ := h.claimed.markLanes hlen hinj hn f
  have hnew := hnew i hi hcase
  obtain ⟨hhash, hname⟩ := hf { lane i with hash := g.laneHash n, name := n.take QUEUE_NAME_MAX }
  rw [heq]
  generalize f _ = l at hnew hhash hname
  have hold : (lane i).hash = g.laneHash n ∨ (lane i).hash = 0 := hcase.imp_right And.left
  have hknown : ∀ p ∈ ps', p.name ∈ names := fun p hp => by
    by_cases hpn : p.name = n
    · exact hpn ▸ hn
    · exact h.known p ((hother p hpn).1 hp)
  refine ⟨h.claimed.update hn hhash hname hold hpre, fun k hk m hm hkm => ?_, hknown,
    fun p hp => ?_⟩
  · by_cases hki : k = i
    · rw [hki, update_self] at hkm ⊢
      obtain rfl : n = m := hinj hn hm (hhash.symm.trans hkm)
      exact hnew
    · rw [update_of_ne hki] at hkm ⊢
      have hmn : m ≠ n := by
        rintro rfl
        rcases hcase with hown | ⟨-, hno⟩
        · exact hki (h.claimed.hash_inj hk hi (hkm ▸ g.laneHash_ne_zero m) (hkm.trans hown.symm))
        · exact hno k hk hkm
      obtain ⟨⟨p, hp, hpn, hpt⟩, hlast⟩ := h.stamp k hk m hm hkm
      exact ⟨⟨p, (hother p (hpn ▸ hmn)).2 hp, hpn, hpt⟩,
        fun p hp hpn => hlast p ((hother p (hpn ▸ hmn)).1 hp) hpn⟩
  · by_cases hpn : p.name = n
    · exact ⟨i, hi, by rw [update_self, hhash, hpn]⟩
    · obtain ⟨k, hk, hkp⟩ := h.told p ((hother p hpn).1 hp)
      have hki : k ≠ i := by
        rintro rfl
        rcases hold with hown | hfree
        · exact hpn (hinj (hknown p hp) hn (hkp.symm.trans hown))
        · exact g.laneHash_ne_zero p.name (hkp.symm.trans hfree)
      exact ⟨k, hk, by rw [update_of_ne hki, hkp]⟩

theorem Told.polled {p : Poll} (hp : p.name = n) (hpast : ∀ q ∈ ps, q.atMs ≤ p.atMs) :
    Told g names (ps ++ [p]) (markLanes lane (g.hash n) n (Lane.polled p.atMs)) := by
  refine h.mark hlen hinj hn (fun _ => ⟨rfl, rfl⟩) (fun q hq => ?_) fun _ _ _ => ⟨?_, ?_⟩
  · have hne : q ≠ p := fun heq => hq (heq ▸ hp)
    simp [hne]
  · exact ⟨p, by simp, hp, rfl⟩
  · intro q hq _
    rcases mem_append.1 hq with hq | hq
    · exact hpast q hq
    · rw [mem_singleton.1 hq]
      exact le_rfl

theorem Told.drained {p : Poll} (hp : p.name = n) (hmem : p ∈ ps) (now : Nat) :
    Told g names ps (markLanes lane (g.hash n) n (Lane.drained now)) := by
  refine h.mark hlen hinj hn (fun _ => ⟨rfl, rfl⟩) (fun _ _ => Iff.rfl) fun i hi hcase => ?_
  rcases hcase with hown | ⟨-, hno⟩
  · exact h.stamp i hi n hn hown
  · obtain ⟨k, hk, hkp⟩ := h.told p hmem
    exact absurd (hp ▸ hkp) (hno k hk)

end

section
variable {ps : List Poll} (hlen : names.length ≤ LANES)
  (hinj : Set.InjOn g.laneHash {n | n ∈ names}) (hslots : g.slots ≠ 0)
include hlen hinj hslots

/-- A call keeps the table up with its pops. -/
theorem Told.call (h : Told g names ps s.lane) (hpast : ∀ p ∈ ps, p.atMs ≤ s.nowMs) {c : Call}
    (hc : ∀ p ∈ c.polls s.nowMs, p.name ∈ names) :
    Told g names (ps ++ c.polls s.nowMs) ((code g c).run s).1.lane := by
  rcases call_lane hslots s c with ⟨queue, visibility, job, hreq, hlane⟩ | ⟨hreq, hlane⟩
  · have hpolls : c.polls s.nowMs = [⟨s.nowMs, c.app, queue⟩] := by rw [Call.polls, hreq]
    have hn : Ns.key c.app queue ∈ names := hc ⟨s.nowMs, c.app, queue⟩ (by simp [hpolls])
    have hpolled := h.polled hlen hinj hn (p := ⟨s.nowMs, c.app, queue⟩) rfl hpast
    rw [hpolls, hlane]
    cases job with
    | false => exact hpolled
    | true =>
      exact hpolled.drained hlen hinj hn (p := ⟨s.nowMs, c.app, queue⟩) rfl (by simp) s.nowMs
  · have hpolls : c.polls s.nowMs = [] := by
      rw [Call.polls]
      split
      · rename_i queue visibility heq
        exact absurd heq (hreq queue visibility)
      · rfl
    rw [hpolls, append_nil, hlane]
    exact h

/-- A run keeps the table up with its pops. -/
theorem Told.runs (h : Told g names ps s.lane) (hpast : ∀ p ∈ ps, p.atMs ≤ s.nowMs) {es : List Op}
    (hes : ∀ p ∈ polls s.nowMs es, p.name ∈ names) :
    Told g names (ps ++ polls s.nowMs es) (Run.runs (seqStep g) s es).lane ∧
      ∀ p ∈ ps ++ polls s.nowMs es, p.atMs ≤ (Run.runs (seqStep g) s es).nowMs := by
  induction es generalizing s ps with
  | nil =>
    rw [polls, append_nil]
    exact ⟨h, hpast⟩
  | cons e es ih =>
    cases e with
    | tick ms =>
      have hpast' : ∀ p ∈ ps, p.atMs ≤ (tick ms s).nowMs := fun p hp =>
        (hpast p hp).trans (Nat.le_add_right ..)
      exact ih (s := tick ms s) h hpast' hes
    | call c =>
      obtain ⟨hc, hrest⟩ := forall_mem_append.1 hes
      have hnow := call_nowMs g s c
      have hcpast : ∀ p ∈ c.polls s.nowMs, p.atMs ≤ s.nowMs := by
        intro p hp
        rw [Call.polls] at hp
        split at hp
        · rw [mem_singleton.1 hp]
        · cases hp
      rw [polls, ← append_assoc]
      have hrun := ih (s := seqStep g s (.call c)) (h.call hlen hinj hslots hpast hc)
        (fun p hp => hnow ▸ forall_mem_append.2 ⟨hpast, hcpast⟩ p hp)
      simp only [seqStep, hnow] at hrun
      exact hrun hrest

end

/-! ## The jobs -/

/-- The queue was pushed to. -/
def Pushed (es : List Op) (app : Option Ns.App) (queue : Bytes) : Prop :=
  ∃ payload delay, .call ⟨app, .push queue payload delay⟩ ∈ es

/-- Every job has the name of a queue that was pushed to. -/
def JobsPushed (es : List Op) (s : Ring) : Prop :=
  ∀ i, (s.job i).id ≠ 0 → ∃ app queue, Pushed es app queue ∧
    (s.job i).name = (Ns.key app queue).take QUEUE_NAME_MAX

/-- A step of the run names its jobs after queues pushed to. -/
theorem JobsPushed.step {es : List Op} (h : JobsPushed es s) {e : Op} (he : e ∈ es) :
    JobsPushed es (seqStep g s e) := by
  cases e with
  | tick ms => exact h
  | call c =>
    intro i hne
    simp only [seqStep] at hne ⊢
    cases call_change g s c i with
    | same heq => exact heq ▸ h i (heq ▸ hne)
    | filled queue payload delay hreq heq =>
      rw [heq]
      refine ⟨c.app, queue, ⟨payload, delay, ?_⟩, rfl⟩
      rw [← hreq]
      exact he
    | reserved lease visibility heq =>
      rw [heq] at hne ⊢
      exact h i hne
    | freed heq =>
      rw [heq] at hne
      exact absurd rfl hne
    | released delay heq =>
      rw [heq] at hne ⊢
      exact h i hne

theorem jobsPushed_runs (g : Config) (nowMs : Nat) (es : List Op) :
    JobsPushed es (ringAfter g nowMs es) := by
  have hall : ∀ es' ⊆ es, ∀ s, JobsPushed es s → JobsPushed es (Run.runs (seqStep g) s es') := by
    intro es' hsub
    induction es' with
    | nil => exact fun s h => h
    | cons e es' ih =>
      obtain ⟨he, hsub⟩ := cons_subset.1 hsub
      exact fun s h => ih hsub _ (h.step he)
  exact hall es (Subset.refl es) _ fun i hne => absurd rfl hne

/-! ## The warnings -/

/-- What is stored of the queue's name tells which queue of which application it is. -/
def Tellable (app : Option Ns.App) (queue : Bytes) : Prop :=
  Ns.key app queue ≠ [] ∧ label ((Ns.key app queue).take QUEUE_NAME_MAX) = (app, queue)

instance (app : Option Ns.App) (queue : Bytes) : Decidable (Tellable app queue) :=
  inferInstanceAs (Decidable (_ ∧ _))

/-- The queue was popped within the last minute, in whole seconds. -/
def PolledOfLate (now : Nat) (ps : List Poll) (app : Option Ns.App) (queue : Bytes) : Prop :=
  ∃ p ∈ ps, p.app = app ∧ p.queue = queue ∧ (now - p.atMs) / 1000 ≤ POLL_STALE_SECS

theorem isRecent_ageSecs {now stamp : Nat} : isRecent (ageSecs now stamp) = true ↔
    stamp ≠ 0 ∧ (now - stamp) / 1000 ≤ POLL_STALE_SECS := by
  rw [ageSecs]
  split
  · rename_i hne
    simp [isRecent, hne]
  · rename_i h0
    simp [isRecent, not_not.1 h0]

section
variable {ps : List Poll} (h : Told g names ps s.lane) (htell : ∀ p ∈ ps, Tellable p.app p.queue)
  {app : Option Ns.App} {queue : Bytes}
include h htell

theorem Told.lastPoll {l : LaneStats} (hl : laneOf (lanes s) app queue = some l) :
    LastPoll ps (Ns.key app queue) l.lastPolledMs ∧
      ∃ p ∈ ps, p.app = app ∧ p.queue = queue ∧ p.atMs = l.lastPolledMs := by
  obtain ⟨i, hi, hstats⟩ := mem_lanes.1 (mem_of_find?_eq_some hl)
  have hlabel := find?_some hl
  simp only [decide_eq_true_eq] at hlabel
  rw [Lane.stats] at hstats
  split at hstats
  · cases hstats
  rename_i hne
  split at hstats
  · cases hstats
  cases hstats
  obtain ⟨n, hn, hhash, hname⟩ := h.claimed.own i hi hne
  have hlast := h.stamp i hi n hn hhash
  obtain ⟨p, hp, hpn, hpt⟩ := hlast.1
  have hshown := (htell p hp).2
  rw [← Poll.name, hpn] at hshown
  rw [Lane.label, hname, take_take, min_self, hshown] at hlabel
  obtain ⟨hqueue, happ⟩ := hlabel
  dsimp only at hqueue happ ⊢
  refine ⟨?_, p, hp, happ, hqueue, hpt⟩
  rw [← happ, ← hqueue, ← Poll.name, hpn]
  exact hlast

theorem Told.exists_laneOf (hinj : Set.InjOn g.laneHash {n | n ∈ names}) {p : Poll} (hp : p ∈ ps) :
    ∃ l, laneOf (lanes s) p.app p.queue = some l := by
  obtain ⟨i, hi, hhash⟩ := h.told p hp
  have hne : (s.lane i).hash ≠ 0 := hhash ▸ g.laneHash_ne_zero p.name
  obtain ⟨n, hn, hhash', hname⟩ := h.claimed.own i hi hne
  obtain rfl : n = p.name := hinj hn (h.known p hp) (hhash'.symm.trans hhash)
  obtain ⟨hfull, hshown⟩ := htell p hp
  have hstored : (s.lane i).name.take QUEUE_NAME_MAX = p.name.take QUEUE_NAME_MAX := by
    rw [hname, take_take, min_self]
  have hlabel : (s.lane i).label = (p.app, p.queue) := by
    rw [Lane.label, hstored]
    exact hshown
  have hstats : (s.lane i).stats = some
      { app := p.app, name := p.queue, lastPolledMs := (s.lane i).lastPolledMs
        lastDrainedMs := (s.lane i).lastDrainedMs } := by
    rw [Lane.stats, if_neg hne, if_neg, hlabel]
    rw [hstored, take_eq_nil_iff, not_or]
    exact ⟨by decide, hfull⟩
  rw [← Option.isSome_iff_exists, laneOf, find?_isSome]
  exact ⟨_, mem_lanes.2 ⟨i, hi, hstats⟩, by simp⟩

theorem Told.polledOfLate (hinj : Set.InjOn g.laneHash {n | n ∈ names})
    (hpos : ∀ p ∈ ps, 0 < p.atMs) :
    (∃ l ∈ laneOf (lanes s) app queue, isRecent (ageSecs s.nowMs l.lastPolledMs) = true) ↔
      PolledOfLate s.nowMs ps app queue := by
  constructor
  · rintro ⟨l, hl, hrecent⟩
    obtain ⟨-, p, hp, happ, hqueue, hat⟩ := h.lastPoll htell hl
    exact ⟨p, hp, happ, hqueue, hat ▸ (isRecent_ageSecs.1 hrecent).2⟩
  · rintro ⟨p, hp, rfl, rfl, hage⟩
    obtain ⟨l, hl⟩ := h.exists_laneOf htell hinj hp
    obtain ⟨⟨-, hlast⟩, -⟩ := h.lastPoll htell hl
    have hle : p.atMs ≤ l.lastPolledMs := hlast p hp rfl
    have hpos := hpos p hp
    refine ⟨l, hl, isRecent_ageSecs.2 ⟨by omega, ?_⟩⟩
    exact (Nat.div_le_div_right (by omega)).trans hage

end

/-- **A warning tells the truth about the workers**, as long as the queues that are popped have
lanes of their own and the stored names tell all queues apart: it is about a queue that was pushed
to, and says that it is not drained exactly when it was popped within the last minute. -/
theorem watchdog_truthful (g : Config) (stall nowMs : Nat) (es : List Op) (names : List Bytes)
    (hlen : names.length ≤ LANES) (hinj : Set.InjOn g.laneHash {n | n ∈ names})
    (hnames : ∀ p ∈ polls nowMs es, p.name ∈ names)
    (hpolls : ∀ p ∈ polls nowMs es, Tellable p.app p.queue)
    (hpushed : ∀ app queue, Pushed es app queue → Tellable app queue) (hnow : 0 < nowMs) :
    ∀ w ∈ warnings g stall (ringAfter g nowMs es),
      Pushed es w.app w.queue ∧ (w.fault = .notDraining ↔
        PolledOfLate (ringAfter g nowMs es).nowMs (polls nowMs es) w.app w.queue) := by
  intro w hw
  obtain ⟨⟨created, ⟨i, hi, hid, hlabel, -, -⟩, -⟩, hfault⟩ := mem_warnings hw
  have hslots : g.slots ≠ 0 := Nat.ne_of_gt (Nat.zero_lt_of_lt hi)
  obtain ⟨htold, -⟩ := (told_init g names nowMs).runs hlen hinj hslots (by simp) hnames
  rw [nil_append] at htold
  refine ⟨?_, hfault.trans (htold.polledOfLate hpolls hinj fun p hp => ?_)⟩
  · obtain ⟨app, queue, hes, hname⟩ := jobsPushed_runs g nowMs es i hid
    rw [Job.label, hname, take_take, min_self, (hpushed app queue hes).2] at hlabel
    cases hlabel
    exact hes
  · exact Nat.lt_of_lt_of_le hnow (le_atMs_of_mem_polls hp)

/-- Two jobs wait in a queue, and a worker of its own takes one of them. -/
def attended : List Op :=
  [.call ⟨none, .push mail [1] 0⟩, .call ⟨none, .push mail [2] 0⟩, .tick 31000,
    .call ⟨none, .pop mail 60⟩]

theorem watchdog_truthful_mail :
    ∃ w ∈ warnings mailRing DEFAULT_STALL_SECS (ringAfter mailRing 1000 attended),
      w.fault = .notDraining ∧ Pushed attended w.app w.queue ∧
        PolledOfLate 32000 (polls 1000 attended) w.app w.queue := by
  have hwarns : ∃ w ∈ warnings mailRing DEFAULT_STALL_SECS (ringAfter mailRing 1000 attended),
      w.fault = .notDraining := by
    decide
  obtain ⟨w, hw, hfault⟩ := hwarns
  have hpushed : ∀ app queue, Pushed attended app queue → Tellable app queue := by
    rintro app queue ⟨payload, delay, hp⟩
    simp only [attended, mem_cons, Op.call.injEq, Call.mk.injEq, Req.push.injEq,
      reduceCtorEq, not_mem_nil, and_false, or_false] at hp
    rcases hp with ⟨rfl, rfl, -⟩ | ⟨rfl, rfl, -⟩ <;> decide
  have htruth := watchdog_truthful mailRing DEFAULT_STALL_SECS 1000 attended [mail] (by decide)
    (by simp) (by decide) (by decide) hpushed (by decide) w hw
  exact ⟨w, hw, hfault, htruth.1, htruth.2.1 hfault⟩

/-- More queues are popped than the table has lanes, and the last of them gets a job. -/
def crowded : List Op :=
  ((List.range 65).map fun i => .call ⟨none, .pop [UInt8.ofNat i] 60⟩) ++
    [.call ⟨none, .push [64] [1] 0⟩, .tick 31000]

instance (now : Nat) (ps : List Poll) (app : Option Ns.App) (queue : Bytes) :
    Decidable (PolledOfLate now ps app queue) := inferInstanceAs (Decidable (∃ _, _ ∧ _))

/-- **A queue without a lane is said to be unattended**, half a minute after its last pop. -/
theorem watchdog_accuses_polled_queue :
    ¬ ∀ w ∈ warnings mailRing DEFAULT_STALL_SECS (ringAfter mailRing 1000 crowded),
      w.fault = .notDraining ↔ PolledOfLate 32000 (polls 1000 crowded) w.app w.queue := by
  have hwarns : ∃ w ∈ warnings mailRing DEFAULT_STALL_SECS (ringAfter mailRing 1000 crowded),
      w.fault = .unattended ∧ PolledOfLate 32000 (polls 1000 crowded) w.app w.queue := by
    decide +kernel
  obtain ⟨w, hw, hfault, hpolled⟩ := hwarns
  intro hall
  have hdrains := (hall w hw).2 hpolled
  rw [hfault] at hdrains
  cases hdrains

end Askr.Queue
