import Askr.Queue.Delayed
import Askr.Queue.Watch

/-!
# What the watchdog calls stalled

A warning is raised on the age of a job, counted from the time it was pushed. A job that was neither
delayed nor out since then (`Job.Undisturbed`) could be taken all that time: its slot is as the push
left it (`job_eq_of_created_lt`), so a warning that is based on such jobs is about one that was free
for as long as the threshold says (`warned_job_is_free`).

A job that was pushed with a delay is as old when it becomes available, and is called stalled at
once (`watchdog_counts_delay`).
-/

namespace Askr.Queue

open Conc Prog Run

variable {g : Config} {s : Ring}

/-! ## Times of a run -/

/-- The ring is in the state `s`, with `rest` still to come, at the time `u`. -/
def During (s : Ring) (rest : List Op) (u : Nat) : Prop :=
  s.nowMs ≤ u ∧ u ≤ match rest with
    | .tick ms :: _ => s.nowMs + ms
    | _ => s.nowMs

/-- The job `n` of the queue is in the ring, and can be taken at the time `u`. -/
def Free (g : Config) (s : Ring) (queue : Option Ns.App × Bytes) (n u : Nat) : Prop :=
  ∃ i < g.slots, (s.job i).id = n ∧ (s.job i).label = queue ∧ (s.job i).pends u

/-- **The job can be taken all the time** after `t`, until the run ends. -/
def FreeSince (g : Config) (nowMs : Nat) (es : List Op) (queue : Option Ns.App × Bytes)
    (n t : Nat) : Prop :=
  ∀ done rest, done ++ rest = es → ∀ u, During (ringAfter g nowMs done) rest u →
    t < u → Free g (ringAfter g nowMs done) queue n u

theorem nowMs_le_runs (g : Config) (s : Ring) (es : List Op) :
    s.nowMs ≤ (runs (seqStep g) s es).nowMs := by
  induction es generalizing s with
  | nil => exact le_rfl
  | cons e es ih =>
    cases e with
    | call c => exact (call_nowMs g s c).symm.le.trans (ih _)
    | tick ms => exact (Nat.le_add_right s.nowMs ms).trans (ih (tick ms s))

theorem During.le_runs {rest : List Op} {u : Nat} (h : During s rest u) :
    u ≤ (runs (seqStep g) s rest).nowMs := by
  cases rest with
  | nil => exact h.2
  | cons e rest =>
    cases e with
    | call c => exact h.2.trans (nowMs_le_runs g s (.call c :: rest))
    | tick ms => exact h.2.trans (nowMs_le_runs g (tick ms s) rest)

/-! ## A slot that stays as it was filled -/

/-- The job was not delayed, and not out since it was made. -/
def Job.Undisturbed (e : Job) : Prop :=
  e.availableAt ≤ e.createdAt ∧ e.reservedUntil ≤ e.createdAt

instance (e : Job) : Decidable e.Undisturbed := inferInstanceAs (Decidable (_ ∧ _))

/-- So were all jobs of the queue that can be taken. -/
def Undisturbed (g : Config) (s : Ring) (queue : Option Ns.App × Bytes) : Prop :=
  ∀ i < g.slots, (s.job i).id ≠ 0 → (s.job i).label = queue → (s.job i).pends s.nowMs →
    (s.job i).Undisturbed

theorem le_later {now : Nat} (h : now < U64) (secs : Nat) : now ≤ later now secs := by
  rw [later, satAdd]
  exact Nat.le_min.2 ⟨Nat.le_add_right .., Nat.le_sub_one_of_lt h⟩

theorem Change.undisturbed {c : Call} {i : Nat} {e : Job} (h : Change g s c i e)
    (hnow : s.nowMs < U64) (hid : e.id ≠ 0) (he : e.Undisturbed) (hlt : e.createdAt < s.nowMs) :
    e = s.job i := by
  cases h with
  | same heq => exact heq
  | filled queue payload delay _ heq =>
    subst heq
    exact absurd hlt (Nat.lt_irrefl _)
  | reserved lease visibility heq =>
    subst heq
    exact absurd ((le_later hnow visibility).trans he.2) (Nat.not_le.2 hlt)
  | freed heq =>
    subst heq
    exact absurd rfl hid
  | released delay heq =>
    subst heq
    exact absurd ((le_later hnow delay).trans he.1) (Nat.not_le.2 hlt)

/-- **Since it was made**, the job was in its slot as it is at the end of the run. -/
theorem job_eq_of_created_lt {es : List Op} {i : Nat}
    (hnow : (runs (seqStep g) s es).nowMs < U64)
    (hid : ((runs (seqStep g) s es).job i).id ≠ 0)
    (he : ((runs (seqStep g) s es).job i).Undisturbed)
    (hlt : ((runs (seqStep g) s es).job i).createdAt < s.nowMs) :
    (runs (seqStep g) s es).job i = s.job i := by
  induction es generalizing s with
  | nil => rfl
  | cons e es ih =>
    rw [runs_cons] at hnow hid he hlt ⊢
    cases e with
    | tick ms => exact ih hnow hid he (Nat.lt_add_right ms hlt)
    | call c =>
      have hstep : (seqStep g s (.call c)).nowMs = s.nowMs := call_nowMs g s c
      have hrest := ih hnow hid he (hstep ▸ hlt)
      rw [hrest] at hid he hlt ⊢
      have hstart : s.nowMs < U64 := hstep ▸ (nowMs_le_runs g _ es).trans_lt hnow
      exact (call_change g s c i).undisturbed hstart hid he hlt

theorem freeSince_created {nowMs : Nat} {es : List Op} {i : Nat} (hi : i < g.slots)
    (hnow : (ringAfter g nowMs es).nowMs < U64) (hid : ((ringAfter g nowMs es).job i).id ≠ 0)
    (he : ((ringAfter g nowMs es).job i).Undisturbed) :
    FreeSince g nowMs es ((ringAfter g nowMs es).job i).label
      ((ringAfter g nowMs es).job i).id ((ringAfter g nowMs es).job i).createdAt := by
  rintro done rest rfl u ⟨hge, hle⟩ hlt
  rw [ringAfter_append] at hnow hid he hlt ⊢
  generalize ringAfter g nowMs done = s at hnow hid he hlt hge hle ⊢
  have hsame : (runs (seqStep g) s rest).job i = s.job i := by
    cases rest with
    | nil => rfl
    | cons e rest =>
      cases e with
      | call c => exact job_eq_of_created_lt hnow hid he (hlt.trans_le hle)
      | tick ms =>
        exact job_eq_of_created_lt (s := tick ms s) hnow hid he (hlt.trans_le hle)
  refine ⟨i, hi, by rw [hsame], by rw [hsame], ?_, ?_⟩
  · rw [← hsame]
    exact he.2.trans hlt.le
  · rw [← hsame]
    exact he.1.trans hlt.le

/-- **A warning is about a job that waits**: if the jobs of its queue that can be taken were neither
delayed nor out since they were made, one of them could be taken for as long as the threshold
says. -/
theorem warned_job_is_free (g : Config) (stall nowMs : Nat) (es : List Op) (w : LaneWarning)
    (hw : w ∈ warnings g stall (ringAfter g nowMs es)) (hnow : (ringAfter g nowMs es).nowMs < U64)
    (hjobs : Undisturbed g (ringAfter g nowMs es) (w.app, w.queue)) :
    ∃ n ≠ 0, FreeSince g nowMs es (w.app, w.queue) n
      ((ringAfter g nowMs es).nowMs - stall * 1000) := by
  obtain ⟨⟨created, ⟨i, hi, hid, hlabel, hpends, rfl⟩, hstall⟩, -⟩ := mem_warnings hw
  have hfree := freeSince_created hi hnow hid (hjobs i hi hid hlabel hpends)
  rw [hlabel] at hfree
  refine ⟨_, hid, fun done rest heq u hu hlt => hfree done rest heq u hu ?_⟩
  have hage := (Nat.le_div_iff_mul_le (by decide)).1 hstall
  have hend := hu.le_runs (g := g)
  rw [← ringAfter_append, heq] at hend
  omega

/-- A job that nobody asks for. -/
def forgotten : List Op := [.call ⟨none, .push mail [1] 0⟩, .tick 31000]

theorem warned_job_is_free_mail :
    ∃ w ∈ warnings mailRing DEFAULT_STALL_SECS (ringAfter mailRing 1000 forgotten),
      ∃ n ≠ 0, FreeSince mailRing 1000 forgotten (w.app, w.queue) n 2000 := by
  have hwarns : ∃ w ∈ warnings mailRing DEFAULT_STALL_SECS (ringAfter mailRing 1000 forgotten),
      w.fault = .unattended := by
    decide
  have hjobs : ∀ i < mailRing.slots,
      ((ringAfter mailRing 1000 forgotten).job i).Undisturbed := by
    decide
  obtain ⟨w, hw, -⟩ := hwarns
  exact ⟨w, hw, warned_job_is_free mailRing DEFAULT_STALL_SECS 1000 forgotten w hw
    (by decide) fun i hi _ _ _ => hjobs i hi⟩

/-- A job for an hour from now, and the hour. -/
def delayedJob : List Op := [.call ⟨none, .push mail [1] 3600⟩, .tick 3600000]

/-- **A job is called stalled when its delay is over**: no job of the queue could be taken a
millisecond before. -/
theorem watchdog_counts_delay :
    ¬ ∀ w ∈ warnings mailRing DEFAULT_STALL_SECS (ringAfter mailRing 1000 delayedJob),
      ∃ n ≠ 0, FreeSince mailRing 1000 delayedJob (w.app, w.queue) n
        ((ringAfter mailRing 1000 delayedJob).nowMs - DEFAULT_STALL_SECS * 1000) := by
  have hwarns : ∃ w ∈ warnings mailRing DEFAULT_STALL_SECS (ringAfter mailRing 1000 delayedJob),
      w.fault = .unattended := by
    decide
  have hnone : ∀ i < mailRing.slots,
      ((ringAfter mailRing 1000 (delayedJob.take 1)).job i).id ≠ 0 →
      ¬ ((ringAfter mailRing 1000 (delayedJob.take 1)).job i).pends 3600999 := by
    decide
  obtain ⟨w, hw, -⟩ := hwarns
  intro hall
  obtain ⟨n, hn, hfree⟩ := hall w hw
  obtain ⟨i, hi, hid, -, hpends⟩ := hfree (delayedJob.take 1) (delayedJob.drop 1) rfl 3600999
    ⟨by decide, by decide⟩ (by decide)
  exact hnone i hi (hid ▸ hn) hpends

end Askr.Queue
