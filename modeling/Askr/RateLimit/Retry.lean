import Askr.RateLimit

/-!
# The promise of `Retry-After`

A refused call is told after how many seconds to come back. Refused calls in between may refill the
bucket, but none takes anything: the tokens in the bucket and the time up to a fixed deadline stay
worth one token (`Owed`), because a refill is credited no more time than it is worth. So the promise
is kept exactly when it could be kept at once (`honest_iff`): when the time from the last refill to
the deadline is worth what is missing. That fails for a bucket whose last refill is in the future,
which is what a clock that is set back leaves (`retry_after_broken`).
-/

namespace Askr.RateLimit

open Run Nat

def Refuses (rule : Rule) (b : Bucket) (now : Nat) : Prop :=
  (consume rule b now).2.allowed = false

instance (rule : Rule) (b : Bucket) (now : Nat) : Decidable (Refuses rule b now) :=
  inferInstanceAs (Decidable (_ = _))

def called (rule : Rule) (b : Bucket) (now : Nat) : Bucket := (consume rule b now).1

/-- When the caller that is refused at `t` may come back. -/
def deadline (rule : Rule) (b : Bucket) (t : Nat) : Nat :=
  t + 1000 * (consume rule b t).2.retryAfter

/-- **The promise.** After a refusal at `t`, whatever calls are refused before the deadline, the
first one at or after it is allowed. The clock values do not decrease. -/
def Honest (rule : Rule) (b : Bucket) (t : Nat) : Prop :=
  ∀ (ts : List Nat) (now : Nat), (t :: ts ++ [now]).Pairwise (· ≤ ·) →
    (∀ s ∈ ts, s < deadline rule b t) → deadline rule b t ≤ now → now < U64 →
    Along (called rule) (Refuses rule) (called rule b t) ts →
      (consume rule (runs (called rule) (called rule b t) ts) now).2.allowed = true

/-- Every refusal keeps its promise. -/
def RetryAfterHonest : Prop :=
  ∀ (rule : Rule) (b : Bucket) (t : Nat), 1 ≤ rule.limit → 1 ≤ rule.window →
    b.tokensMilli ≤ rule.capacity → t < U64 → Refuses rule b t → Honest rule b t

/-- The clock was set back by an hour: the last refill is in the future, so nothing is refilled
before the clock gets there, and a caller that is told to come back in a second is refused then. -/
theorem retry_after_broken : ¬ RetryAfterHonest := by
  intro h
  have := h { limit := 1, window := 1, burst := 0 }
    { keyHash := 1, tokensMilli := 0, lastMs := 1700003600000 } 1700000000000 (by decide)
    (by decide) (by decide) (by decide) (by decide) [] 1700000001000
    (by decide) (by simp) (by decide) (by decide) trivial
  revert this
  decide

/-! ## What is owed -/

/-- At time `N` the bucket is worth a token: what it has, and the time from its last refill on. The
products fit, and a bucket can hold a token at all. -/
structure Owed (rule : Rule) (N : Nat) (b : Bucket) : Prop where
  worth : MILLI * rule.window + b.lastMs * rule.limit ≤
    b.tokensMilli * rule.window + N * rule.limit
  fits : (MILLI - b.tokensMilli) * rule.window < U64
  room : MILLI ≤ rule.capacity

section
variable {rule : Rule} {b : Bucket} {now t N : Nat}

theorem refuses_iff : Refuses rule b now ↔ (refilled rule b now).tokensMilli < MILLI := by
  rw [Refuses, consume]
  split
  · simp only [Bool.true_eq_false, false_iff]
    omega
  · simp only [true_iff]
    omega

theorem called_of_refuses (h : Refuses rule b now) : called rule b now = refilled rule b now := by
  rw [called, consume, if_neg (by have := refuses_iff.1 h; omega)]

theorem deadline_of_refuses (h : Refuses rule b t) :
    deadline rule b t = t + 1000 * rule.retryAfter (refilled rule b t).tokensMilli := by
  rw [deadline, consume, if_neg (by have := refuses_iff.1 h; omega)]

theorem creditedMs_mul_le (hl : 1 ≤ rule.limit) :
    rule.creditedMs (rule.refill b now) * rule.limit ≤ rule.refill b now * rule.window := by
  rw [Rule.creditedMs, satMul_refill_window, Nat.max_eq_left hl]
  exact div_mul_le_self _ _

/-- **What a refused call keeps.** -/
theorem Owed.call (hl : 1 ≤ rule.limit) (hnow : now < U64) (hr : Refuses rule b now)
    (h : Owed rule N b) : Owed rule N (called rule b now) := by
  rw [called_of_refuses hr]
  rw [refuses_iff] at hr
  rcases refilled_cases (b := b) hl hnow with heq | ⟨-, -, heq⟩ | ⟨-, -, -, heq⟩
  all_goals rw [heq] at hr ⊢
  · exact h
  · have hroom : MILLI ≤ rule.capacity := h.room
    have hshort : rule.capacity < MILLI := hr
    omega
  · have hcredit : rule.creditedMs (rule.refill b now) * rule.limit ≤
        rule.refill b now * rule.window := creditedMs_mul_le hl
    refine ⟨?_, ?_, h.room⟩
    · have hworth := h.worth
      simp only [Nat.add_mul]
      omega
    · refine Nat.lt_of_le_of_lt (Nat.mul_le_mul_right _ ?_) h.fits
      simp only
      omega

theorem Owed.missing_le (h : Owed rule N b) :
    (MILLI - b.tokensMilli) * rule.window ≤ (N - b.lastMs) * rule.limit := by
  have hworth := h.worth
  rw [Nat.sub_mul, Nat.sub_mul]
  omega

theorem le_refill {m : Nat} (hw : 1 ≤ rule.window) (hfits : m * rule.window < U64)
    (hm : m * rule.window ≤ (now - b.lastMs) * rule.limit) : m ≤ rule.refill b now :=
  (Nat.le_div_iff_mul_le hw).2 (Nat.le_min.2 ⟨hm, by omega⟩)

theorem Owed.allows (hl : 1 ≤ rule.limit) (hw : 1 ≤ rule.window) (hnow : now < U64) (hN : N ≤ now)
    (h : Owed rule N b) : ¬ Refuses rule b now := by
  intro hr
  have hmissing : MILLI - b.tokensMilli ≤ rule.refill b now :=
    le_refill hw h.fits
      (Nat.le_trans h.missing_le (Nat.mul_le_mul_right _ (Nat.sub_le_sub_right hN _)))
  rw [refuses_iff] at hr
  have hroom : MILLI ≤ rule.capacity := h.room
  by_cases hb : refilled rule b now = b
  · rw [hb] at hr
    rw [refilled] at hb
    have hpos : 0 < rule.refill b now := by omega
    have hlast : now - b.lastMs > 0 := by
      rcases Nat.eq_zero_or_pos (now - b.lastMs) with h0 | h0
      · rw [Rule.refill, h0, satMul, Nat.zero_mul] at hpos
        simp at hpos
      · exact h0
    rw [if_pos hlast] at hb
    simp only [if_neg (Nat.pos_iff_ne_zero.1 hpos)] at hb
    split at hb
    all_goals
      have htok := congrArg Bucket.tokensMilli hb
      simp only at htok
      omega
  · rcases refilled_cases (b := b) hl hnow with heq | ⟨-, -, heq⟩ | ⟨-, -, -, heq⟩
    · exact hb heq
    all_goals
      rw [heq] at hr
      simp only at hr
      omega

/-! ## When the promise is kept -/

/-- The promise can be kept at the deadline, if the clock gets there: a bucket can hold a token, and
what is missing in the refilled bucket is worth the time from its last refill to the deadline. -/
def Due (rule : Rule) (b : Bucket) (t : Nat) : Prop :=
  let b' := refilled rule b t
  let N := t + 1000 * rule.retryAfter b'.tokensMilli
  N < U64 → MILLI ≤ rule.capacity ∧ (MILLI - b'.tokensMilli) * rule.window < U64 ∧
    (MILLI - b'.tokensMilli) * rule.window ≤ (N - b'.lastMs) * rule.limit

theorem owed_of_due (hw : 1 ≤ rule.window) (hr : Refuses rule b t) (h : Due rule b t)
    (hN : deadline rule b t < U64) : Owed rule (deadline rule b t) (called rule b t) := by
  rw [called_of_refuses hr]
  rw [deadline_of_refuses hr] at hN ⊢
  obtain ⟨hroom, hfits, hworth⟩ := h hN
  rw [refuses_iff] at hr
  have hpos : 0 < (MILLI - (refilled rule b t).tokensMilli) * rule.window :=
    Nat.mul_pos (by omega) hw
  rw [Nat.sub_mul, Nat.sub_mul] at hworth
  rw [Nat.sub_mul] at hpos
  exact ⟨by omega, hfits, hroom⟩

/-- **When `Retry-After` is honest.** A refusal keeps its promise, whatever calls are refused before
the deadline, exactly when the promise is due then. -/
theorem honest_iff (hl : 1 ≤ rule.limit) (hw : 1 ≤ rule.window) (hr : Refuses rule b t) :
    Honest rule b t ↔ Due rule b t := by
  constructor
  · intro h hN
    rw [← deadline_of_refuses hr] at hN ⊢
    have hle : t ≤ deadline rule b t := Nat.le_add_right _ _
    have hallow : ¬ Refuses rule (called rule b t) (deadline rule b t) := by
      have := h [] (deadline rule b t) (by simpa using hle) (by simp) (Nat.le_refl _) hN trivial
      simpa [Refuses] using this
    rw [called_of_refuses hr, refuses_iff, Nat.not_lt] at hallow
    have hshort := refuses_iff.1 hr
    generalize refilled rule b t = b' at hallow hshort ⊢
    generalize deadline rule b t = N at hallow hN ⊢
    obtain ⟨hroom, hrefill⟩ : MILLI ≤ rule.capacity ∧
        MILLI - b'.tokensMilli ≤ rule.refill b' N := by
      rcases refilled_cases (b := b') hl hN with heq | ⟨-, hfull, heq⟩ | ⟨-, -, hpart, heq⟩
      · rw [heq] at hallow
        omega
      all_goals
        rw [heq] at hallow
        simp only at hallow
        omega
    have hmul := Nat.mul_le_mul_right rule.window hrefill
    refine ⟨hroom, ?_, Nat.le_trans hmul refill_mul_window_le⟩
    have hsat : rule.refill b' N * rule.window ≤ U64 - 1 :=
      Nat.le_trans (div_mul_le_self _ _) (Nat.min_le_right _ _)
    have hU : 0 < U64 := by decide
    omega
  · intro h ts now hmono hbefore hnow hlt hrefused
    have howed := owed_of_due hw hr h (Nat.lt_of_le_of_lt hnow hlt)
    have hclock : ∀ s ∈ ts, s < U64 := fun s hs =>
      Nat.lt_trans (hbefore s hs) (Nat.lt_of_le_of_lt hnow hlt)
    have hend := (hrefused.and_mem hclock).inv (fun b s hc => Owed.call hl hc.2 hc.1) howed
    simpa [Refuses] using hend.allows hl hw hlt hnow

theorem le_divCeil_mul (a : Nat) {c : Nat} (hc : 1 ≤ c) : a ≤ divCeil a c * c := by
  have hdiv := div_add_mod (a + c - 1) c
  have hmod := mod_lt (a + c - 1) hc
  rw [divCeil, Nat.mul_comm]
  omega

/-- With the last refill not in the future, and no overflow, the promise is due. -/
theorem due_of_lastMs_le (hl : 1 ≤ rule.limit) (ht : t < U64)
    (hlast : b.lastMs ≤ t) (hroom : (rule.limit + rule.burst) * MILLI < U64)
    (hfits : MILLI * rule.window < U64) : Due rule b t := by
  intro _
  have hcap : rule.capacity = (rule.limit + rule.burst) * MILLI := by
    have hsum : rule.limit + rule.burst < U64 := by
      rw [MILLI] at hroom
      omega
    rw [Rule.capacity, u64Add, mod_eq_of_lt hsum, satMul]
    omega
  have hlast' : (refilled rule b t).lastMs ≤ t := by
    have hcredit : rule.creditedMs (rule.refill b t) ≤ t - b.lastMs := creditedMs_le hl
    rcases refilled_cases (b := b) hl ht with heq | ⟨-, -, heq⟩ | ⟨-, -, -, heq⟩
    · rw [heq]
      exact hlast
    · exact Nat.le_of_eq (congrArg _ heq)
    · rw [heq]
      simp only
      omega
  generalize refilled rule b t = b' at hlast' ⊢
  have hfits' : (MILLI - b'.tokensMilli) * rule.window < U64 :=
    Nat.lt_of_le_of_lt (Nat.mul_le_mul_right _ (sub_le _ _)) hfits
  refine ⟨?_, hfits', ?_⟩
  · rw [hcap]
    exact Nat.le_mul_of_pos_left _ (by omega)
  · have hmiss : satMul (MILLI - b'.tokensMilli) rule.window =
        (MILLI - b'.tokensMilli) * rule.window := by
      rw [satMul]
      omega
    have hms := le_divCeil_mul ((MILLI - b'.tokensMilli) * rule.window) hl
    have hsec := le_divCeil_mul (c := 1000)
      (divCeil ((MILLI - b'.tokensMilli) * rule.window) rule.limit) (by decide)
    have hretry : divCeil ((MILLI - b'.tokensMilli) * rule.window) rule.limit ≤
        1000 * rule.retryAfter b'.tokensMilli := by
      rw [Rule.retryAfter, hmiss, Nat.max_eq_left hl]
      omega
    calc (MILLI - b'.tokensMilli) * rule.window
        ≤ divCeil ((MILLI - b'.tokensMilli) * rule.window) rule.limit * rule.limit := hms
      _ ≤ _ := Nat.mul_le_mul_right _ (by omega)

end

/-- Ten tokens a minute: the refused call is told to come back in five seconds, and calls in each of
them do not move the promise. -/
theorem honest_ten_a_minute : Honest { limit := 10, window := 60, burst := 0 }
      { keyHash := 1, tokensMilli := 250, lastMs := 1700000000000 } 1700000000100 :=
  (honest_iff (by decide) (by decide) (by decide)).2
    (due_of_lastMs_le (by decide) (by decide) (by decide) (by decide)
      (by decide))

end Askr.RateLimit
