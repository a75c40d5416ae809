import Askr.Conc.Rely
import Askr.RateLimit

/-!
# The rate limiter of the whole fleet

`check` looks for the bucket of its key along eight slots, under one slot lock at a time, which is
taken to exclude: it takes a token from the bucket, or claims the first free slot with a full one,
and where all eight belong to others it takes over the coldest. No client is refused for want of a
slot (`refused_by_own_bucket`).

The calls of all workers interleave. As long as no bucket on the way of a key changes hands
(`Steady`), a slot that was passed stays the slot of another key (`Foreign.keep`), so no second
bucket is claimed for the key (`Metered`), and `Paid` bounds what the fleet lets through
(`fleet_allowed_le`). The clock may be set back.
-/

namespace Askr.RateLimit

open Conc Prog Probe Run Function List Pool

/-- The mapped table: no slots where rate limiting is off. -/
structure Config where
  slots : Nat
  hasher : Hasher

def Config.init (slots : Nat) (hasher : Hasher) : Config :=
  { slots := if slots = 0 then 0 else max slots 64, hasher }

/-- `hash`: `0` is kept for a free bucket. -/
def Config.hash (g : Config) (key : Bytes) : Nat :=
  if (g.hasher key).toNat = 0 then 1 else (g.hasher key).toNat

/-- The shared memory, and the clock. -/
structure Mem where
  bucket : Nat → Bucket
  nowMs : Nat

def Mem.init (nowMs : Nat) : Mem := { bucket := fun _ => ⟨0, 0, 0⟩, nowMs }

/-- The full bucket a slot is claimed with. -/
def fresh (rule : Rule) (h now : Nat) : Bucket :=
  { keyHash := h, tokensMilli := rule.capacity, lastMs := now }

/-- `consume` on the bucket `b` in slot `i`. -/
def take (rule : Rule) (now : Nat) (s : Mem) (i : Nat) (b : Bucket) : Mem × Prog Mem Verdict :=
  ({ s with bucket := update s.bucket i (consume rule b now).1 },
    .ret (consume rule b now).2)

/-- The loop of `check`, with the coldest slot so far and its age, and what comes after it. -/
def checkScan (g : Config) (rule : Rule) (h now : Nat) :
    List Nat → Option Nat → Nat → Prog Mem Verdict
  | [], victim, _ => .atom fun s => take rule now s (victim.getD (h % g.slots)) (fresh rule h now)
  | i :: rest, victim, age => .atom fun s =>
    if (s.bucket i).keyHash = h then take rule now s i (s.bucket i)
    else if (s.bucket i).keyHash = 0 then take rule now s i (fresh rule h now)
    else if (s.bucket i).lastMs < age then
      (s, checkScan g rule h now rest (some i) (s.bucket i).lastMs)
    else (s, checkScan g rule h now rest victim age)

/-- The slots a key may have its bucket in. -/
def path (g : Config) (h : Nat) : List Nat := window PROBE g.slots h

/-- What `check` does once it is about to read the clock. -/
def checkFrom (g : Config) (rule : Rule) (h : Nat) : Prog Mem Verdict :=
  .read fun s => checkScan g rule h s.nowMs (path g h) none (U64 - 1)

def check (g : Config) (key : Bytes) (rule : Rule) : Prog Mem Verdict :=
  if g.slots = 0 ∨ rule.limit = 0 ∨ rule.window = 0 then
    .ret { allowed := true, remaining := rule.limit, retryAfter := 0 }
  else checkFrom g rule (g.hash key)

theorem Config.hash_ne_zero (g : Config) (key : Bytes) : g.hash key ≠ 0 := by
  rw [Config.hash]
  split
  · decide
  · assumption

theorem Config.hash_lt (g : Config) (key : Bytes) : g.hash key < U64 := by
  rw [Config.hash]
  split
  · decide
  · exact (g.hasher key).toNat_lt

theorem home_mem_path {g : Config} {h : Nat} (hh : h < U64) : h % g.slots ∈ path g h := by
  obtain ⟨w, hw⟩ := window_succ 7 g.slots h
  have hhome : u64Add h 0 = h := Nat.mod_eq_of_lt hh
  rw [path, PROBE, hw, hhome]
  exact .head _

theorem consume_keyHash (rule : Rule) (b : Bucket) (now : Nat) :
    (consume rule b now).1.keyHash = b.keyHash := by
  have hrefilled : (refilled rule b now).keyHash = b.keyHash := by
    simp only [refilled]
    repeat' split
    all_goals rfl
  simp only [consume]
  split
  all_goals exact hrefilled

theorem take_bucket_self (rule : Rule) (now : Nat) (s : Mem) (i : Nat) (b : Bucket) :
    (take rule now s i b).1.bucket i = (consume rule b now).1 := update_self ..

theorem take_bucket_of_ne (rule : Rule) (now : Nat) (s : Mem) {i j : Nat} (hj : j ≠ i)
    (b : Bucket) : (take rule now s i b).1.bucket j = s.bucket j := update_of_ne hj _ _

/-- The slot belongs to another key. -/
def Foreign (h : Nat) (s : Mem) (i : Nat) : Prop :=
  (s.bucket i).keyHash ≠ 0 ∧ (s.bucket i).keyHash ≠ h

section
variable {g : Config} {rule : Rule} {h now : Nat} {s s' : Mem}

theorem consume_fresh (hl : 1 ≤ rule.limit) (hsum : rule.limit + rule.burst < U64) :
    (consume rule (fresh rule h now) now).2.allowed = true := by
  have hcap : MILLI ≤ rule.capacity := by
    rw [Rule.capacity, satMul, u64Add, Nat.mod_eq_of_lt hsum]
    refine Nat.le_min.2 ⟨Nat.le_mul_of_pos_left _ (by omega), by decide⟩
  have hfull : refilled rule (fresh rule h now) now = fresh rule h now := by
    simp [refilled, fresh]
  have htoken : (fresh rule h now).tokensMilli ≥ MILLI := hcap
  simp only [consume, hfull, htoken, if_true]

/-! ## What a call can do to the table -/

/-- The clock stays, and a bucket that is written is a bucket of the key. -/
structure Effect (h : Nat) (s s' : Mem) : Prop where
  clock : s'.nowMs = s.nowMs
  bucket : ∀ i, s'.bucket i = s.bucket i ∨ (s'.bucket i).keyHash = h

theorem Effect.refl (h : Nat) (s : Mem) : Effect h s s := ⟨rfl, fun _ => .inl rfl⟩

theorem take_effect {b : Bucket} (hb : b.keyHash = h) (i : Nat) :
    Effect h s (take rule now s i b).1 := by
  refine ⟨rfl, fun j => ?_⟩
  rcases eq_or_ne j i with rfl | hj
  · refine .inr ?_
    rw [take_bucket_self, consume_keyHash, hb]
  · exact .inl (take_bucket_of_ne rule now s hj b)

theorem checkScan_effect (w : List Nat) (victim : Option Nat) (age : Nat) :
    (checkScan g rule h now w victim age).Guar (Effect h) := by
  induction w generalizing victim age with
  | nil => exact guar_atom fun s => ⟨take_effect (b := fresh rule h now) rfl _, trivial⟩
  | cons i w ih =>
    refine guar_atom fun s => ?_
    split
    · rename_i hown
      exact ⟨take_effect hown i, trivial⟩
    · split
      · exact ⟨take_effect (b := fresh rule h now) rfl i, trivial⟩
      · split
        exacts [⟨.refl h s, ih _ _⟩, ⟨.refl h s, ih _ _⟩]

theorem check_effect (g : Config) (key : Bytes) (rule : Rule) :
    (check g key rule).Guar (Effect (g.hash key)) := by
  rw [check]
  split
  · trivial
  · exact guar_read (.refl _) fun s => checkScan_effect _ _ _

/-- No bucket on the way of the key changes hands. -/
def KeepHands (g : Config) (h : Nat) (s s' : Mem) : Prop :=
  ∀ i ∈ path g h, (s.bucket i).keyHash ≠ 0 → (s'.bucket i).keyHash = (s.bucket i).keyHash

theorem Foreign.keep {i : Nat} (hi : i ∈ path g h) (hk : KeepHands g h s s')
    (hf : Foreign h s i) : Foreign h s' i := by
  rw [Foreign, hk i hi hf.1]
  exact hf

end

/-! ## The bucket of a key -/

section
variable (g : Config) (rule : Rule) (h t₀ t : Nat)

/-- The bucket of the key, after `n` calls that were allowed: it has none yet, or it has one, behind
slots of others, and what was taken from it is paid for. -/
inductive Metered (s : Mem) (n : Nat) : Prop where
  | none : (∀ i ∈ path g h, (s.bucket i).keyHash ≠ h) → n = 0 → Metered s n
  | some (i : Nat) : i ∈ path g h → (s.bucket i).keyHash = h →
      (∀ j ∈ path g h, (s.bucket j).keyHash = h → j = i) →
      (∀ j ∈ passed (path g h) i, Foreign h s j) →
      Paid rule t₀ ⟨s.bucket i, n⟩ → (s.bucket i).lastMs ≤ t → Metered s n

/-- A call on the key under way: it has yet to read the clock, or it has passed slots of others. -/
inductive CheckThread (s : Mem) : Prog Mem Verdict → Prop where
  | early : CheckThread s (checkFrom g rule h)
  | walk {now age : Nat} {pre rest : List Nat} {victim : Option Nat} : path g h = pre ++ rest →
      t₀ ≤ now → now ≤ t → (∀ i ∈ pre, Foreign h s i) → (∀ v ∈ victim, v ∈ pre) →
      CheckThread s (checkScan g rule h now rest victim age)

/-- The rule counts in whole thousandths or in whole milliseconds, and its products fit. -/
structure Regular : Prop where
  limit : 1 ≤ rule.limit
  window : 1 ≤ rule.window
  dvd : rule.limit ∣ rule.window ∨ rule.window ∣ rule.limit
  fits : Fits rule t₀ t

end

section
variable {g : Config} {rule : Rule} {h t₀ t now n : Nat} {s s' : Mem} {p : Prog Mem Verdict}

theorem Regular.exact (hr : Regular rule t₀ t) {m : Meter} (hm : t₀ ≤ m.bucket.lastMs)
    (hnow : now ≤ t) : Exact rule m now := by
  rcases hr.dvd with hd | hd
  · exact exact_of_limit_dvd hd m now
  · refine exact_of_window_dvd hd (Nat.lt_of_le_of_lt ?_ hr.fits.2.2.1)
    exact Nat.mul_le_mul_right _ (by omega)

theorem CheckThread.ne_ret (hp : CheckThread g rule h t₀ t s p) (v : Verdict) : p ≠ .ret v := by
  rintro rfl
  generalize hq : (Prog.ret v : Prog Mem Verdict) = q at hp
  cases hp with
  | early => cases hq
  | @walk _ _ _ rest _ _ _ _ _ _ =>
    cases rest with
    | nil => cases hq
    | cons i rest => cases hq

theorem CheckThread.keep (hk : KeepHands g h s s') (hp : CheckThread g rule h t₀ t s p) :
    CheckThread g rule h t₀ t s' p := by
  cases hp with
  | early => exact .early
  | walk hpath h₀ ht hpre hv =>
    refine .walk hpath h₀ ht (fun i hi => (hpre i hi).keep ?_ hk) hv
    rw [hpath]
    exact mem_append_left _ hi

theorem Metered.other {h' : Nat} (hh : h ≠ 0) (hne : h' ≠ h) (he : Effect h' s s')
    (hk : KeepHands g h s s') (hm : Metered g rule h t₀ t s n) : Metered g rule h t₀ t s' n := by
  have hsame : ∀ i, (s'.bucket i).keyHash = h → s'.bucket i = s.bucket i := fun i hi =>
    (he.bucket i).resolve_right fun hi' => hne (hi'.symm.trans hi)
  cases hm with
  | none hno hn =>
    refine .none (fun i hi heq => hno i hi ?_) hn
    rw [← hsame i heq, heq]
  | some i hi hown huniq hpre hpaid hlast =>
    have hown' : (s'.bucket i).keyHash = h := by
      rw [hk i hi (hown ▸ hh), hown]
    refine .some i hi hown' (fun j hj heq => huniq j hj ?_)
      (fun j hj => (hpre j hj).keep (mem_of_mem_passed hj) hk) ?_ ?_
    · rw [← hsame j heq, heq]
    · rwa [hsame i hown']
    · rwa [hsame i hown']

theorem Metered.take (hr : Regular rule t₀ t) (hnow : now ≤ t) {i : Nat} {b : Bucket}
    (hi : i ∈ path g h) (hb : b.keyHash = h)
    (huniq : ∀ j ∈ path g h, (s.bucket j).keyHash = h → j = i)
    (hpre : ∀ j ∈ passed (path g h) i, Foreign h s j) (hpaid : Paid rule t₀ ⟨b, n⟩)
    (hlast : b.lastMs ≤ t) : Metered g rule h t₀ t (RateLimit.take rule now s i b).1
      (n + if (consume rule b now).2.allowed then 1 else 0) := by
  have hlt : now < U64 := Nat.lt_of_le_of_lt hnow hr.fits.1
  refine .some i hi ?_ (fun j hj heq => ?_) (fun j hj => ?_) ?_ ?_
  · rw [take_bucket_self, consume_keyHash, hb]
  · by_contra hji
    rw [take_bucket_of_ne rule now s hji] at heq
    exact hji (huniq j hj heq)
  · have hji : j ≠ i := by
      rintro rfl
      exact not_mem_passed hj
    rw [Foreign, take_bucket_of_ne rule now s hji]
    exact hpre j hj
  · rw [take_bucket_self]
    exact hpaid.call hr.limit hlt (hr.exact hpaid.1 hnow)
  · rw [take_bucket_self]
    exact call_lastMs_le (m := ⟨b, n⟩) hr.limit hlt hnow hlast

theorem paid_fresh (h₀ : t₀ ≤ now) : Paid rule t₀ ⟨fresh rule h now, 0⟩ :=
  ⟨h₀, by simp [fresh]⟩

theorem Metered.eq_none (hm : Metered g rule h t₀ t s n) {i : Nat} {pre rest : List Nat}
    (hpath : path g h = pre ++ i :: rest) (hpre : ∀ j ∈ pre, Foreign h s j)
    (hfree : (s.bucket i).keyHash = 0) (hh : h ≠ 0) :
    (∀ j ∈ path g h, (s.bucket j).keyHash ≠ h) ∧ n = 0 := by
  cases hm with
  | none hno hn => exact ⟨hno, hn⟩
  | some i₀ hi₀ hown _ hpassed _ _ =>
    rcases mem_passed_of_not_mem hpath hi₀ fun hmem => (hpre i₀ hmem).2 hown with rfl | hmem
    · exact absurd (hown.symm.trans hfree) hh
    · exact absurd hfree (hpassed i hmem).1

/-- **What one action of a call on the key does**: the call goes on, or it returns, and what it
allowed is paid for. -/
theorem check_next (hr : Regular rule t₀ t) (hh : h ≠ 0) (hlt : h < U64)
    (hclock : t₀ ≤ s.nowMs ∧ s.nowMs ≤ t) (hm : Metered g rule h t₀ t s n)
    (hp : CheckThread g rule h t₀ t s p) (hk : KeepHands g h s (p.next s).1) :
    (CheckThread g rule h t₀ t (p.next s).1 (p.next s).2 ∧ Metered g rule h t₀ t (p.next s).1 n) ∨
      ∃ v, (p.next s).2 = .ret v ∧
        Metered g rule h t₀ t (p.next s).1 (n + if v.allowed then 1 else 0) := by
  cases hp with
  | early =>
    have hpath : path g h = [] ++ path g h := rfl
    exact .inl ⟨.walk hpath hclock.1 hclock.2 (by simp) (by simp), hm⟩
  | @walk now age pre rest victim hpath h₀ ht hpre hv =>
    cases rest with
    | nil =>
      rw [append_nil] at hpath
      have hmem : victim.getD (h % g.slots) ∈ path g h := by
        cases victim with
        | none => exact home_mem_path hlt
        | some v => exact hpath ▸ hv v rfl
      obtain ⟨hne, hno⟩ := hpre _ (hpath ▸ hmem)
      have hhands := hk _ hmem hne
      rw [checkScan, next_atom, take_bucket_self, consume_keyHash] at hhands
      exact absurd hhands.symm hno
    | cons i rest =>
      have hi : i ∈ path g h := by simp [hpath]
      have hpassed : ∀ j ∈ passed (path g h) i, Foreign h s j := fun j hj =>
        hpre j (passed_subset (hpath ▸ hj))
      rw [checkScan, next_atom] at hk ⊢
      by_cases hown : (s.bucket i).keyHash = h
      · rw [if_pos hown]
        refine .inr ⟨_, rfl, ?_⟩
        cases hm with
        | none hno _ => exact absurd hown (hno i hi)
        | some i₀ hi₀ hown₀ huniq hpassed₀ hpaid hlast =>
          obtain rfl := huniq i hi hown
          exact .take hr ht hi hown huniq hpassed hpaid hlast
      · rw [if_neg hown]
        by_cases hfree : (s.bucket i).keyHash = 0
        · rw [if_pos hfree]
          obtain ⟨hno, rfl⟩ := hm.eq_none hpath hpre hfree hh
          exact .inr ⟨_, rfl, .take hr ht hi rfl (fun j hj heq => absurd heq (hno j hj)) hpassed
            (paid_fresh h₀) ht⟩
        · rw [if_neg hfree]
          have hpath' : path g h = (pre ++ [i]) ++ rest := by simp [hpath]
          have hpre' : ∀ j ∈ pre ++ [i], Foreign h s j := by
            intro j hj
            rcases mem_append.1 hj with hj | hj
            · exact hpre j hj
            · cases mem_singleton.1 hj
              exact ⟨hfree, hown⟩
          split
          · exact .inl ⟨.walk hpath' h₀ ht hpre' (by simp), hm⟩
          · exact .inl ⟨.walk hpath' h₀ ht hpre'
              (fun v hv' => mem_append_left _ (hv v hv')), hm⟩

end

/-! ## Schedules -/

/-- A request that is checked. -/
structure Call where
  key : Bytes
  rule : Rule

def code (g : Config) (c : Call) : Prog Mem Verdict := check g c.key c.rule

def setClock (now : Nat) (s : Mem) : Mem := { s with nowMs := now }

section
variable (g : Config) (rule : Rule) (h t₀ t : Nat)

/-- The calls on the key that were allowed so far. -/
def allowedCalls (P : Pool Mem Call Verdict) : Nat :=
  P.done.countP fun x => g.hash x.call.key = h && x.res.allowed

/-- An event of a steady schedule: calls on the key are under its rule, the clock is between `t₀`
and `t`, and no bucket on the way of the key changes hands. -/
structure Steady (P : Pool Mem Call Verdict) (e : Event Call Nat) : Prop where
  rule : ∀ u c, e = .call u c → g.hash c.key = h → c.rule = rule
  clock : ∀ now, e = .env now → t₀ ≤ now ∧ now ≤ t
  hands : ∀ u c p, e = .step u → P.thread u = some (c, p) →
    KeepHands g h P.shared (p.next P.shared).1

/-- What holds in every state of a steady schedule. -/
structure FleetInv (P : Pool Mem Call Verdict) : Prop where
  threads : ∀ u c p, P.thread u = some (c, p) → g.hash c.key = h →
    CheckThread g rule h t₀ t P.shared p
  clock : t₀ ≤ P.shared.nowMs ∧ P.shared.nowMs ≤ t
  metered : Metered g rule h t₀ t P.shared (allowedCalls g h P)

end

section
variable {g : Config} {rule : Rule} {h t₀ t : Nat} {P : Pool Mem Call Verdict} {u : Nat}
  {c : Call} {p : Prog Mem Verdict} {s : Mem}

theorem allowedCalls_settle_of_ne_ret (hp : ∀ v, p ≠ .ret v) :
    allowedCalls g h (P.settle u c s p) = allowedCalls g h P := by
  rcases P.settle_done (t := u) (c := c) (s := s) (p := p) with hd | ⟨v, hv, -⟩
  · rw [allowedCalls, hd, allowedCalls]
  · exact absurd hv (hp v)

theorem allowedCalls_settle_of_ne (hc : g.hash c.key ≠ h) :
    allowedCalls g h (P.settle u c s p) = allowedCalls g h P := by
  rcases P.settle_done (t := u) (c := c) (s := s) (p := p) with hd | ⟨v, -, hd⟩
  · rw [allowedCalls, hd, allowedCalls]
  · rw [allowedCalls, hd, countP_cons, allowedCalls]
    simp [hc]

theorem allowedCalls_settle_ret (hc : g.hash c.key = h) (v : Verdict) :
    allowedCalls g h (P.settle u c s (.ret v)) =
      allowedCalls g h P + if v.allowed then 1 else 0 := by
  simp [allowedCalls, settle, countP_cons, hc]

theorem code_eq (hr : Regular rule t₀ t) (hslots : g.slots ≠ 0) (hc : c.rule = rule) :
    code g c = checkFrom g rule (g.hash c.key) := by
  have hl := hr.limit
  have hw := hr.window
  rw [code, check, hc, if_neg (by omega)]

/-- A call begins, under the rule if it is of the hash. -/
theorem FleetInv.call (hr : Regular rule t₀ t) (hslots : g.slots ≠ 0)
    (hi : FleetInv g rule h t₀ t P) (hrule : g.hash c.key = h → c.rule = rule) :
    FleetInv g rule h t₀ t (P.settle u c P.shared (code g c)) := by
  refine ⟨?_, by simpa using hi.clock, ?_⟩
  · rw [settle_shared]
    refine forall_settle (fun _ hk => ?_) fun u' c' p' _ => hi.threads u' c' p'
    rw [code_eq hr hslots (hrule hk), hk]
    exact .early
  · rw [settle_shared]
    by_cases hk : g.hash c.key = h
    · have hgoes : ∀ v, code g c ≠ .ret v := fun v hv => by
        rw [code_eq hr hslots (hrule hk)] at hv
        cases hv
      rw [allowedCalls_settle_of_ne_ret hgoes]
      exact hi.metered
    · rw [allowedCalls_settle_of_ne hk]
      exact hi.metered

/-- One action of a call. -/
theorem FleetInv.step (hr : Regular rule t₀ t) (hh : h ≠ 0) (hlt : h < U64)
    (hi : FleetInv g rule h t₀ t P) (hu : P.thread u = some (c, p))
    (hk : KeepHands g h P.shared (p.next P.shared).1)
    (heff : Effect (g.hash c.key) P.shared (p.next P.shared).1) :
    FleetInv g rule h t₀ t (P.settle u c (p.next P.shared).1 (p.next P.shared).2) := by
  refine ⟨?_, ?_, ?_⟩
  · rw [settle_shared]
    refine forall_settle (fun hret hkey => ?_) fun u' c' p' _ hu' hkey =>
      (hi.threads u' c' p' hu' hkey).keep hk
    rcases check_next hr hh hlt hi.clock hi.metered (hi.threads u _ p hu hkey) hk with
      ⟨hgoes, -⟩ | ⟨v, hv, -⟩
    exacts [hgoes, absurd hv (hret v)]
  · rw [settle_shared, heff.clock]
    exact hi.clock
  · rw [settle_shared]
    by_cases hkey : g.hash c.key = h
    · rcases check_next hr hh hlt hi.clock hi.metered (hi.threads u c p hu hkey) hk with
        ⟨hgoes, hm⟩ | ⟨v, hv, hm⟩
      · rw [allowedCalls_settle_of_ne_ret hgoes.ne_ret]
        exact hm
      · rw [hv, allowedCalls_settle_ret hkey]
        exact hm
    · rw [allowedCalls_settle_of_ne hkey]
      exact hi.metered.other hh hkey heff hk

/-- One event. -/
theorem FleetInv.exec (hr : Regular rule t₀ t) (hslots : g.slots ≠ 0) (hh : h ≠ 0) (hlt : h < U64)
    (hi : FleetInv g rule h t₀ t P) (hg : P.Guarded fun c => Effect (g.hash c.key))
    {e : Event Call Nat} (he : Steady g rule h t₀ t P e) :
    FleetInv g rule h t₀ t (P.exec (code g) setClock e) := by
  rcases exec_cases (code g) setClock P e with hex | ⟨u, c, hce, hex⟩ |
    ⟨u, c, p, hse, hu, hex⟩ | ⟨now, hne, hex⟩
  all_goals rw [hex]
  · exact hi
  · exact hi.call hr hslots (he.rule u c hce)
  · exact hi.step hr hh hlt hu (he.hands u c p hse hu) ((hg u c p hu).next (.refl _) P.shared).1
  · refine ⟨fun u c p hu hk => ?_, he.clock now hne, ?_⟩
    · have hands : KeepHands g h P.shared (setClock now P.shared) := fun _ _ _ => rfl
      exact (hi.threads u c p hu hk).keep hands
    · cases hi.metered with
      | none hno hn => exact .none hno hn
      | some i hi' hown huniq hpre hpaid hlast => exact .some i hi' hown huniq hpre hpaid hlast

end

/-- **The rate limit over the fleet.** However the workers' calls interleave, of the calls on a key
that has no bucket at the start no more are allowed up to time `t` than a full bucket and the time
since `t₀` are worth. -/
theorem fleet_allowed_le {g : Config} {rule : Rule} {key : Bytes} {t₀ t : Nat} {s : Mem}
    (hr : Regular rule t₀ t) (hslots : g.slots ≠ 0) (hclock : t₀ ≤ s.nowMs ∧ s.nowMs ≤ t)
    (hnew : ∀ i ∈ path g (g.hash key), (s.bucket i).keyHash ≠ g.hash key)
    {es : List (Event Call Nat)}
    (hes : Along (exec (code g) setClock) (Steady g rule (g.hash key) t₀ t) (start s)
      es) : allowedCalls g (g.hash key) (runs (exec (code g) setClock) (start s) es) ≤
      rule.limit + rule.burst + rule.limit * (t - t₀) / (1000 * rule.window) := by
  have hstart : FleetInv g rule (g.hash key) t₀ t (start s) := by
    refine ⟨fun u c p hu => ?_, hclock, .none hnew rfl⟩
    cases hu
  have hend := (along_guarded (fun _ => .refl _) (fun c : Call => check_effect g c.key c.rule)
    hes).inv (I := FleetInv g rule (g.hash key) t₀ t)
    (fun P e he hi => hi.exec hr hslots (g.hash_ne_zero key) (g.hash_lt key) he.2 he.1) hstart
  cases hend.metered with
  | none _ hn => rw [hn]; exact Nat.zero_le _
  | some i _ _ _ _ hpaid hlast =>
    exact hpaid.allowed_le hr.window (Nat.le_trans hlast (Nat.le_max_left _ _))

/-- Sixty-four slots, one home for every key. -/
def oneHome : Config := .init 64 fun _ => 1

instance decidableSteady (g : Config) (rule : Rule) (h t₀ t : Nat) (P : Pool Mem Call Verdict) :
    (e : Event Call Nat) → Decidable (Steady g rule h t₀ t P e)
  | .call _ c => decidable_of_iff (g.hash c.key = h → c.rule = rule)
      ⟨fun hc => ⟨(by rintro _ _ ⟨⟩; exact hc), (by rintro _ ⟨⟩), (by rintro _ _ _ ⟨⟩)⟩,
        fun hs => hs.rule _ c rfl⟩
  | .env now => decidable_of_iff (t₀ ≤ now ∧ now ≤ t)
      ⟨fun hn => ⟨(by rintro _ _ ⟨⟩), (by rintro _ ⟨⟩; exact hn), (by rintro _ _ _ ⟨⟩)⟩,
        fun hs => hs.clock now rfl⟩
  | .step u => decidable_of_iff (∀ x ∈ P.thread u, ∀ i ∈ path g h, (P.shared.bucket i).keyHash ≠ 0 →
        ((x.2.next P.shared).1.bucket i).keyHash = (P.shared.bucket i).keyHash)
      ⟨fun hk => ⟨(by rintro _ _ ⟨⟩), (by rintro _ ⟨⟩),
          (by rintro _ c p ⟨⟩ hu; exact hk (c, p) hu)⟩,
        fun hs x hx => hs.hands u x.1 x.2 rfl hx⟩

/-- Two workers call at once, and again after a second and a half, under a rule of one request a
second: both read the clock before either of them has a bucket. -/
def rush : List (Event Call Nat) :=
  let both : List (Event Call Nat) :=
    [.call 0 ⟨[], 1, 1, 0⟩, .call 1 ⟨[], 1, 1, 0⟩, .step 0, .step 1, .step 1, .step 0]
  both ++ .env 1500 :: both

/-- Two of the four calls are allowed, and no more than two may be. -/
theorem fleet_allowed_le_rush :
    allowedCalls oneHome (oneHome.hash []) (runs (exec (code oneHome) setClock)
      (start (.init 0)) rush) = 2 ∧
    allowedCalls oneHome (oneHome.hash []) (runs (exec (code oneHome) setClock)
      (start (.init 0)) rush) ≤ 1 + 0 + 1 * (1500 - 0) / (1000 * 1) := by
  have hregular : Regular ⟨1, 1, 0⟩ 0 1500 := ⟨by decide, by decide, by decide, by decide⟩
  exact ⟨by decide +kernel,
    fleet_allowed_le hregular (by decide) (by decide) (by decide) (by decide +kernel)⟩

/-! ## Failing open -/

/-- A call is refused only while its key has a bucket of its own in its window, short of a token. -/
def Fair (g : Config) (c : Call) (v : Verdict) (s : Mem) : Prop :=
  1 ≤ c.rule.limit → c.rule.limit + c.rule.burst < U64 → v.allowed = false →
    ∃ i ∈ path g (g.hash c.key), (s.bucket i).keyHash = g.hash c.key ∧
      (s.bucket i).tokensMilli < MILLI

section
variable {g : Config} {c : Call} {s : Mem}

theorem consume_refused {rule : Rule} {b : Bucket} {now : Nat}
    (h : (consume rule b now).2.allowed = false) : (consume rule b now).1.tokensMilli < MILLI := by
  simp only [consume] at h ⊢
  split at h
  · cases h
  · rename_i hshort
    rw [if_neg hshort]
    exact Nat.not_le.1 hshort

theorem checkScan_fair {w : List Nat} (hw : ∀ i ∈ w, i ∈ path g (g.hash c.key)) (now : Nat)
    (victim : Option Nat) (age : Nat) :
    (checkScan g c.rule (g.hash c.key) now w victim age).Valid (fun _ _ => True) (fun _ _ => True)
      (Fair g c) s := by
  have hfresh : ∀ s, Fair g c (consume c.rule (fresh c.rule (g.hash c.key) now) now).2 s :=
    fun s hl hsum hno => by rw [consume_fresh hl hsum] at hno; cases hno
  induction w generalizing s victim age with
  | nil => exact valid_atom fun s' _ => ⟨trivial, hfresh _⟩
  | cons i w ih =>
    obtain ⟨hi, hw⟩ := List.forall_mem_cons.1 hw
    refine valid_atom fun s' _ => ?_
    split
    · rename_i hown
      refine ⟨trivial, fun _ _ hno => ⟨i, hi, ?_⟩⟩
      rw [take_bucket_self, consume_keyHash]
      exact ⟨hown, consume_refused hno⟩
    · split
      · exact ⟨trivial, hfresh _⟩
      · split
        exacts [⟨trivial, ih hw _ _⟩, ⟨trivial, ih hw _ _⟩]

theorem code_fair : (code g c).Valid (fun _ _ => True) (fun _ _ => True) (Fair g c) s := by
  rw [code, check]
  split
  · exact fun _ _ hno => by cases hno
  · exact valid_read (fun _ => trivial) fun s' _ => checkScan_fair (fun _ => id) _ _ _

end

/-- **No client is refused for want of a slot.** Whatever the other workers do meanwhile: when a
call returns a refusal, its key has a bucket of its own, and that is short of a token. -/
theorem refused_by_own_bucket (g : Config) (s : Mem) (es : List (Event Call Nat))
    (e : Event Call Nat) :
    let P := runs (exec (code g) setClock) (start s) es
    (P.exec (code g) setClock e).done = P.done ∨
      ∃ u c v, (P.exec (code g) setClock e).done = ⟨u, c, v⟩ :: P.done ∧
        Fair g c v (P.exec (code g) setClock e).shared := by
  have hvalid : (runs (exec (code g) setClock) (start s) es).Valid
      (fun _ _ _ => True) (fun _ _ _ => True) (Fair g) := by
    refine runs_inv (fun P e hP => ?_) es fun u c p hu => (by cases hu)
    exact hP.exec (fun _ _ _ _ => trivial) (fun _ => trivial) e (fun _ _ _ => code_fair)
      (fun _ _ _ _ _ _ => trivial) fun _ _ _ _ _ => trivial
  exact hvalid.done (fun _ _ _ _ => trivial) (fun _ => trivial) e fun _ _ _ => code_fair

end Askr.RateLimit
