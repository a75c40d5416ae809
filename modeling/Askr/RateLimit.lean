import Askr.Conc.Run
import Askr.Shm

/-!
# The rate limiter

`ratelimit.rs`: token buckets in shared memory, counted in thousandths of a token. `consume` refills
a bucket by the time since its last refill and takes one token; `check`, which finds the bucket of a
key, is in `RateLimit.Fleet`.

A refill is `elapsed * limit / window` milli-tokens, rounded down, and the time it stands for is
`refill * window / limit` milliseconds, rounded down again: too little time is credited, and the
rest refills the bucket a second time. Where nothing is rounded away (`Exact`) every call keeps that
tokens in the bucket and tokens taken are paid for by the capacity and by the time up to the last
refill (`Paid`).
-/

namespace Askr.RateLimit

open Run Nat

/-- The linear-probe window. -/
def PROBE : Nat := 8
/-- Tokens are tracked in thousandths. -/
def MILLI : Nat := 1000

structure Bucket where
  /-- `0` is free. -/
  keyHash : Nat
  tokensMilli : Nat
  /-- Unix milliseconds of the last refill. -/
  lastMs : Nat
deriving DecidableEq

structure Verdict where
  allowed : Bool
  remaining : Nat
  /-- In seconds. -/
  retryAfter : Nat
deriving DecidableEq

/-- The arguments of `check` beside the key: `limit` tokens refill over `window` seconds, and
`burst` more may accumulate. -/
structure Rule where
  limit : Nat
  window : Nat
  burst : Nat
deriving DecidableEq

/-- The tokens of a full bucket, in thousandths. -/
def Rule.capacity (rule : Rule) : Nat := satMul (u64Add rule.limit rule.burst) MILLI

/-- What the time since the last refill is worth. -/
def Rule.refill (rule : Rule) (b : Bucket) (now : Nat) : Nat :=
  satMul (now - b.lastMs) rule.limit / rule.window

/-- The milliseconds that a refill stands for. -/
def Rule.creditedMs (rule : Rule) (refill : Nat) : Nat :=
  satMul refill rule.window / max rule.limit 1

/-- The first half of `consume`: the bucket refilled. -/
def refilled (rule : Rule) (b : Bucket) (now : Nat) : Bucket :=
  if now - b.lastMs > 0 then
    let refill := rule.refill b now
    if refill = 0 then b
    else if satAdd b.tokensMilli refill ≥ rule.capacity then
      { b with tokensMilli := rule.capacity, lastMs := now }
    else
      { b with
        tokensMilli := b.tokensMilli + refill
        lastMs := min (satAdd b.lastMs (rule.creditedMs refill)) now }
  else b

def divCeil (a b : Nat) : Nat := (a + b - 1) / b

/-- The seconds until a bucket short of one token has one. -/
def Rule.retryAfter (rule : Rule) (tokens : Nat) : Nat :=
  max (divCeil (divCeil (satMul (MILLI - tokens) rule.window) (max rule.limit 1)) 1000) 1

/-- `consume`: refill by the time that has passed, then take one token. -/
def consume (rule : Rule) (b : Bucket) (now : Nat) : Bucket × Verdict :=
  let b := refilled rule b now
  if b.tokensMilli ≥ MILLI then
    ({ b with tokensMilli := b.tokensMilli - MILLI },
      { allowed := true, remaining := (b.tokensMilli - MILLI) / MILLI, retryAfter := 0 })
  else (b, { allowed := false, remaining := 0, retryAfter := rule.retryAfter b.tokensMilli })

/-! ## One bucket under a sequence of calls -/

/-- A bucket, and the calls it allowed so far. -/
structure Meter where
  bucket : Bucket
  allowed : Nat

/-- A full bucket at time `t₀`. -/
def Meter.full (rule : Rule) (t₀ : Nat) : Meter :=
  { bucket := { keyHash := 1, tokensMilli := rule.capacity, lastMs := t₀ }, allowed := 0 }

def Meter.call (rule : Rule) (m : Meter) (now : Nat) : Meter :=
  { bucket := (consume rule m.bucket now).1
    allowed := m.allowed + if (consume rule m.bucket now).2.allowed then 1 else 0 }

/-- The calls at the clock values `ts`, from a full bucket at `t₀`. -/
def metered (rule : Rule) (t₀ : Nat) (ts : List Nat) : Meter :=
  runs (Meter.call rule) (.full rule t₀) ts

/-- The clock values are `u64`s, and no product of a call between `t₀` and `t` overflows. -/
def Fits (rule : Rule) (t₀ t : Nat) : Prop :=
  t < U64 ∧ (rule.limit + rule.burst) * MILLI < U64 ∧ (t - t₀) * rule.limit < U64 ∧
    MILLI * rule.window < U64

instance (rule : Rule) (t₀ t : Nat) : Decidable (Fits rule t₀ t) :=
  inferInstanceAs (Decidable (_ ∧ _))

/-- The rate limit as an upper bound: calls up to time `t`, at clock values that do not decrease. -/
def RateBound : Prop :=
  ∀ (rule : Rule) (t₀ t : Nat) (ts : List Nat), 1 ≤ rule.limit → 1 ≤ rule.window →
    Fits rule t₀ t → (t₀ :: ts).Pairwise (· ≤ ·) → (∀ now ∈ ts, now ≤ t) →
      (metered rule t₀ ts).allowed ≤
        rule.limit + rule.burst + rule.limit * (t - t₀) / (1000 * rule.window)

/-- 45 tokens in 2 seconds are 22.5 milli-tokens in a millisecond. A refill of 22 is credited
`22 * 2 / 45 = 0` ms, so every call of that millisecond refills the bucket anew, and the 46th of
them finds a token. -/
theorem rate_exceeded : ¬ RateBound := by
  intro h
  have := h { limit := 45, window := 2, burst := 0 } 1700000000000 1700000000001
    (List.replicate 45 1700000000000 ++ List.replicate 46 1700000000001) (by decide) (by decide)
    (by decide) (by decide) (by decide)
  revert this
  decide

/-! ## Where the credited time is exact -/

/-- A call that refills the bucket, but not to the full, is credited the very time its refill stands
for. -/
def Exact (rule : Rule) (m : Meter) (now : Nat) : Prop :=
  0 < rule.refill m.bucket now →
    m.bucket.tokensMilli + rule.refill m.bucket now < rule.capacity →
      rule.limit ∣ rule.refill m.bucket now * rule.window

/-- The tokens in the bucket and the tokens taken are paid for by the capacity and by the time from
`t₀` to the last refill. -/
def Paid (rule : Rule) (t₀ : Nat) (m : Meter) : Prop :=
  t₀ ≤ m.bucket.lastMs ∧
    rule.window * (m.bucket.tokensMilli + MILLI * m.allowed) ≤
      rule.window * rule.capacity + rule.limit * (m.bucket.lastMs - t₀)

section
variable {rule : Rule} {b : Bucket} {now t₀ t : Nat}

theorem refill_mul_window_le : rule.refill b now * rule.window ≤ (now - b.lastMs) * rule.limit :=
  Nat.le_trans (div_mul_le_self _ _) (Nat.min_le_left _ _)

theorem satMul_refill_window :
    satMul (rule.refill b now) rule.window = rule.refill b now * rule.window :=
  Nat.min_eq_left (Nat.le_trans (div_mul_le_self _ _) (Nat.min_le_right _ _))

theorem creditedMs_le (hl : 1 ≤ rule.limit) :
    rule.creditedMs (rule.refill b now) ≤ now - b.lastMs := by
  rw [Rule.creditedMs, satMul_refill_window, Nat.max_eq_left hl]
  refine Nat.div_le_of_le_mul ?_
  rw [Nat.mul_comm rule.limit]
  exact refill_mul_window_le

theorem capacity_le : rule.capacity ≤ (rule.limit + rule.burst) * MILLI :=
  Nat.le_trans (Nat.min_le_left _ _) (Nat.mul_le_mul_right _ (mod_le _ _))

/-- What a refill does to a bucket: nothing, it fills it, or it adds to it and moves its last refill
on by the time it stands for. -/
theorem refilled_cases (hl : 1 ≤ rule.limit) (hnow : now < U64) : refilled rule b now = b ∨
      (b.lastMs < now ∧ rule.capacity ≤ b.tokensMilli + rule.refill b now ∧
        refilled rule b now = { b with tokensMilli := rule.capacity, lastMs := now }) ∨
      (b.lastMs < now ∧ 0 < rule.refill b now ∧
        b.tokensMilli + rule.refill b now < rule.capacity ∧
        refilled rule b now =
          { b with
            tokensMilli := b.tokensMilli + rule.refill b now
            lastMs := b.lastMs + rule.creditedMs (rule.refill b now) }) := by
  have hcap : rule.capacity ≤ U64 - 1 := Nat.min_le_right _ _
  have hcredit : rule.creditedMs (rule.refill b now) ≤ now - b.lastMs := creditedMs_le hl
  rw [refilled]
  split
  · simp only
    split
    · exact .inl rfl
    · split
      · rename_i hfull
        exact .inr (.inl ⟨by omega, Nat.le_trans hfull (Nat.min_le_left _ _), rfl⟩)
      · rename_i hrefill hpart
        have hlast : min (satAdd b.lastMs (rule.creditedMs (rule.refill b now))) now =
            b.lastMs + rule.creditedMs (rule.refill b now) := by
          rw [satAdd]
          omega
        rw [satAdd] at hpart
        exact .inr (.inr ⟨by omega, by omega, by omega, by rw [hlast]⟩)
  · exact .inl rfl

theorem Paid.refilled {m : Meter} (hl : 1 ≤ rule.limit) (hnow : now < U64) (he : Exact rule m now)
    (h : Paid rule t₀ m) :
    Paid rule t₀ { m with bucket := RateLimit.refilled rule m.bucket now } := by
  obtain ⟨hlast, hpaid⟩ := h
  rcases refilled_cases (b := m.bucket) hl hnow with heq | ⟨hlt, hfull, heq⟩ |
    ⟨hlt, hpos, hpart, heq⟩
  · rw [heq]
    exact ⟨hlast, hpaid⟩
  · rw [heq]
    refine ⟨Nat.le_trans hlast (Nat.le_of_lt hlt), ?_⟩
    have hworth : rule.refill m.bucket now * rule.window ≤ (now - m.bucket.lastMs) * rule.limit :=
      refill_mul_window_le
    have htime : now - t₀ = (m.bucket.lastMs - t₀) + (now - m.bucket.lastMs) := by omega
    calc rule.window * (rule.capacity + MILLI * m.allowed)
        ≤ rule.window * (m.bucket.tokensMilli + rule.refill m.bucket now + MILLI * m.allowed) :=
          Nat.mul_le_mul_left _ (by omega)
      _ = rule.window * (m.bucket.tokensMilli + MILLI * m.allowed) +
            rule.refill m.bucket now * rule.window := by
          rw [Nat.add_right_comm, Nat.mul_add, Nat.mul_comm rule.window (rule.refill _ _)]
      _ ≤ rule.window * rule.capacity + rule.limit * (m.bucket.lastMs - t₀) +
            (now - m.bucket.lastMs) * rule.limit := Nat.add_le_add hpaid hworth
      _ = rule.window * rule.capacity + rule.limit * (now - t₀) := by
          rw [htime, Nat.mul_add, Nat.mul_comm (now - _), Nat.add_assoc]
  · rw [heq]
    refine ⟨by simp only; omega, ?_⟩
    have hcredit : rule.limit * rule.creditedMs (rule.refill m.bucket now) =
        rule.refill m.bucket now * rule.window := by
      rw [Rule.creditedMs, satMul_refill_window, Nat.max_eq_left hl]
      exact Nat.mul_div_cancel' (he hpos hpart)
    have htime : m.bucket.lastMs + rule.creditedMs (rule.refill m.bucket now) - t₀ =
        (m.bucket.lastMs - t₀) + rule.creditedMs (rule.refill m.bucket now) := by omega
    calc rule.window * (m.bucket.tokensMilli + rule.refill m.bucket now + MILLI * m.allowed)
        = rule.window * (m.bucket.tokensMilli + MILLI * m.allowed) +
            rule.refill m.bucket now * rule.window := by
          rw [Nat.add_right_comm, Nat.mul_add, Nat.mul_comm rule.window (rule.refill _ _)]
      _ ≤ rule.window * rule.capacity + rule.limit * (m.bucket.lastMs - t₀) +
            rule.refill m.bucket now * rule.window := Nat.add_le_add_right hpaid _
      _ = _ := by
          simp only
          rw [htime, Nat.mul_add, hcredit, Nat.add_assoc]

/-- **What a call keeps.** A token taken is a token that was in the bucket. -/
theorem Paid.call {m : Meter} (hl : 1 ≤ rule.limit) (hnow : now < U64) (he : Exact rule m now)
    (h : Paid rule t₀ m) : Paid rule t₀ (m.call rule now) := by
  obtain ⟨hlast, hpaid⟩ := h.refilled hl hnow he
  rw [Meter.call, consume]
  simp only at hlast hpaid ⊢
  split
  · rename_i hsome
    refine ⟨hlast, ?_⟩
    have htaken : (RateLimit.refilled rule m.bucket now).tokensMilli - MILLI +
        MILLI * (m.allowed + 1) =
        (RateLimit.refilled rule m.bucket now).tokensMilli + MILLI * m.allowed := by
      rw [mul_succ]
      omega
    simpa [htaken] using hpaid
  · exact ⟨hlast, by simpa using hpaid⟩

theorem call_lastMs_le {m : Meter} (hl : 1 ≤ rule.limit) (hnow : now < U64) (hnow' : now ≤ t)
    (h : m.bucket.lastMs ≤ t) : (m.call rule now).bucket.lastMs ≤ t := by
  have hlast : (m.call rule now).bucket.lastMs = (refilled rule m.bucket now).lastMs := by
    rw [Meter.call, consume]
    simp only
    split <;> rfl
  have hcredit : rule.creditedMs (rule.refill m.bucket now) ≤ now - m.bucket.lastMs :=
    creditedMs_le hl
  rw [hlast]
  rcases refilled_cases (b := m.bucket) hl hnow with heq | ⟨-, -, heq⟩ | ⟨hlt, -, -, heq⟩
  all_goals rw [heq]
  · exact h
  · exact hnow'
  · simp only
    omega

theorem Paid.allowed_le {m : Meter} (hw : 1 ≤ rule.window) (h : Paid rule t₀ m)
    (hlast : m.bucket.lastMs ≤ max t t₀) :
    m.allowed ≤ rule.limit + rule.burst + rule.limit * (t - t₀) / (1000 * rule.window) := by
  have hpaid := h.2
  have hcap : rule.window * rule.capacity ≤ rule.window * ((rule.limit + rule.burst) * 1000) :=
    Nat.mul_le_mul_left _ capacity_le
  have htime : rule.limit * (m.bucket.lastMs - t₀) ≤ rule.limit * (t - t₀) :=
    Nat.mul_le_mul_left _ (by omega)
  have htotal : 1000 * rule.window * m.allowed ≤
      1000 * rule.window * (rule.limit + rule.burst) + rule.limit * (t - t₀) := by
    rw [MILLI, Nat.mul_add] at hpaid
    have h1 : rule.window * (1000 * m.allowed) = 1000 * rule.window * m.allowed := by
      rw [← Nat.mul_assoc, Nat.mul_comm rule.window]
    have h2 : rule.window * ((rule.limit + rule.burst) * 1000) =
        1000 * rule.window * (rule.limit + rule.burst) := by
      rw [Nat.mul_comm _ 1000, ← Nat.mul_assoc, Nat.mul_comm rule.window]
    omega
  have hpos : 0 < 1000 * rule.window := by omega
  rw [← mul_add_div hpos, Nat.le_div_iff_mul_le hpos, Nat.mul_comm]
  exact htotal

end

/-- The credited time is exact for every call when one token takes a whole number of milliseconds
for each thousandth of it. -/
theorem exact_of_limit_dvd {rule : Rule} (h : rule.limit ∣ rule.window) (m : Meter) (now : Nat) :
    Exact rule m now := fun _ _ => Nat.dvd_mul_left_of_dvd h _

/-- It is exact too when a millisecond refills a whole number of thousandths. -/
theorem exact_of_window_dvd {rule : Rule} (h : rule.window ∣ rule.limit) {m : Meter} {now : Nat}
    (hfits : (now - m.bucket.lastMs) * rule.limit < U64) : Exact rule m now := by
  intro _ _
  have hmul : satMul (now - m.bucket.lastMs) rule.limit = (now - m.bucket.lastMs) * rule.limit :=
    Nat.min_eq_left (by omega)
  rw [Rule.refill, hmul, Nat.div_mul_cancel (Nat.dvd_mul_left_of_dvd h _)]
  exact Nat.dvd_mul_left _ _

/-- **The rate limit, where the credited time is exact.** The calls up to time `t` that are allowed
are at most a full bucket and what the time since `t₀` refills. The order of the clock values does
not matter. -/
theorem metered_allowed_le {rule : Rule} {t₀ t : Nat} {ts : List Nat} (hl : 1 ≤ rule.limit)
    (hw : 1 ≤ rule.window) (hfits : Fits rule t₀ t) (hts : ∀ now ∈ ts, now ≤ t)
    (he : Along (Meter.call rule) (Exact rule) (.full rule t₀) ts) : (metered rule t₀ ts).allowed ≤
      rule.limit + rule.burst + rule.limit * (t - t₀) / (1000 * rule.window) := by
  obtain ⟨hpaid, hlast⟩ : Paid rule t₀ (metered rule t₀ ts) ∧
      (metered rule t₀ ts).bucket.lastMs ≤ max t t₀ := by
    refine (he.and_mem hts).inv (I := fun m => Paid rule t₀ m ∧ m.bucket.lastMs ≤ max t t₀)
      (fun m now hc hm => ?_) ⟨⟨Nat.le_refl _, ?_⟩, Nat.le_max_right _ _⟩
    · have hnow : now < U64 := Nat.lt_of_le_of_lt hc.2 hfits.1
      exact ⟨hm.1.call hl hnow hc.1,
        call_lastMs_le hl hnow (Nat.le_trans hc.2 (Nat.le_max_left _ _)) hm.2⟩
    · simp [Meter.full]
  exact Paid.allowed_le hw hpaid hlast

/-- Ten tokens a minute and two more: of seven seconds of calls, thirteen are allowed. -/
theorem metered_ten_a_minute : (metered { limit := 10, window := 60, burst := 2 } 1700000000000
      (List.replicate 20 1700000000000 ++ [1700000005999, 1700000006000, 1700000007000])).allowed
      = 13 ∧
    13 ≤ 10 + 2 + 10 * (1700000007000 - 1700000000000) / (1000 * 60) := by
  have hrun : (metered { limit := 10, window := 60, burst := 2 } 1700000000000
      (List.replicate 20 1700000000000 ++ [1700000005999, 1700000006000, 1700000007000])).allowed
      = 13 := by decide
  refine ⟨hrun, hrun ▸ metered_allowed_le (by decide) (by decide) (by decide)
    (by decide) ?_⟩
  exact (along_of_mem (D := fun _ => True) _ fun _ _ => trivial).mono
    fun m now _ => exact_of_limit_dvd (by decide) m now

end Askr.RateLimit
