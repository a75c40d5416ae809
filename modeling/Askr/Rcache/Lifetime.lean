import Askr.Rcache.Lookup

/-!
# Lifetimes

`store` turns the three lifetimes of a page into three deadlines, with `0` for "never" (no fresh
deadline) and for "off" (no error window). `peek` keeps an entry until the later of the two outer
deadlines and derives the two flags of what it serves from the two inner ones. Here the deadlines
are read off the page (`expired_writeEntry`, `cached_writeEntry`), which gives the phases of an
entry's life in seconds since it was stored.

An entry is untouched while the walk of its key still ends at it, its bytes are those `store` wrote,
and none of its tags was forgotten (`Untouched`).
-/

namespace Askr.Rcache

open Askr.Ns Probe Bytes

/-- A page as it is served, in some phase of its life. -/
def Page.cached (p : Page) (stale errorOnly : Bool) : Cached :=
  { status := p.status, headers := parseHdrBlob (hdrBlob p.headers), body := p.body, stale,
    errorOnly }

/-- The deadlines of the page, as numbers, fit in a word. -/
def Page.InRange (p : Page) (now : Nat) : Prop := now + p.ttl + max p.swr p.sie < U64

instance (p : Page) (now : Nat) : Decidable (p.InRange now) := inferInstanceAs (Decidable (_ < _))

/-- The end of the window in which a page can be served at all. -/
def Page.retained (p : Page) (now : Nat) : Nat := max (now + p.ttl + p.swr) (now + p.ttl + p.sie)

section Deadlines

variable (hasher : Hasher) (tag : Nat → TagGen) (key : Bytes) {p : Page} {s n : Nat}

theorem u64Add_of_lt {a b : Nat} (h : a + b < U64) : u64Add a b = a + b := Nat.mod_eq_of_lt h

theorem writeEntry_zero (ht : p.ttl = 0) :
    (writeEntry hasher tag key p s).expiresAt = 0 ∧ (writeEntry hasher tag key p s).staleUntil = 0 ∧
      (writeEntry hasher tag key p s).errorUntil = 0 := by
  simp [writeEntry, Page.expires, ht]

theorem writeEntry_deadlines (ht : 0 < p.ttl) (hr : p.InRange s) :
    (writeEntry hasher tag key p s).expiresAt = s + p.ttl ∧
      (writeEntry hasher tag key p s).staleUntil = s + p.ttl + p.swr ∧
      (writeEntry hasher tag key p s).errorUntil = if 0 < p.sie then s + p.ttl + p.sie else 0 := by
  simp only [Page.InRange] at hr
  have hexp : p.expires s = s + p.ttl := by
    rw [Page.expires, if_pos ht, u64Add_of_lt (by omega)]
  refine ⟨hexp, ?_, ?_⟩
  · simp only [writeEntry, hexp]
    split
    · exact u64Add_of_lt (by omega)
    · omega
  · simp only [writeEntry, hexp, gt_iff_lt, ht, true_and]
    split
    · exact u64Add_of_lt (by omega)
    · rfl

theorem expired_writeEntry (hr : p.InRange s) :
    (writeEntry hasher tag key p s).expired n = true ↔ 0 < p.ttl ∧ p.retained s < n := by
  rcases Nat.eq_zero_or_pos p.ttl with ht | ht
  · obtain ⟨-, h₂, h₃⟩ := writeEntry_zero hasher tag key (s := s) ht
    simp [Entry.expired, Entry.retain, h₂, h₃, ht]
  · obtain ⟨-, h₂, h₃⟩ := writeEntry_deadlines hasher tag key ht hr
    have hret : (writeEntry hasher tag key p s).retain = p.retained s := by
      rw [Entry.retain, Page.retained, h₂, h₃]
      split <;> omega
    have hpos : p.retained s ≠ 0 := by rw [Page.retained]; omega
    simp [Entry.expired, hret, hpos, ht]

theorem cached_writeEntry (hr : p.InRange s) : (writeEntry hasher tag key p s).cached n =
      p.cached (0 < p.ttl && s + p.ttl < n && n ≤ s + p.ttl + p.swr)
        (0 < p.ttl && s + p.ttl + p.swr < n) := by
  rcases Nat.eq_zero_or_pos p.ttl with ht | ht
  · obtain ⟨h₁, -, -⟩ := writeEntry_zero hasher tag key (s := s) ht
    simp only [Entry.cached, Page.cached, h₁, ht, ne_eq, not_true_eq_false, Nat.lt_irrefl,
      decide_false, Bool.false_and]
    rfl
  · obtain ⟨h₁, h₂, -⟩ := writeEntry_deadlines hasher tag key ht hr
    have hnz : s + p.ttl ≠ 0 := by omega
    have hnz' : s + p.ttl + p.swr ≠ 0 := by omega
    have herr : (decide (s + p.ttl < n) && decide (s + p.ttl + p.swr < n)) =
        decide (s + p.ttl + p.swr < n) := by
      rw [← Bool.decide_and, decide_eq_decide]
      omega
    have hstale : (!decide (s + p.ttl + p.swr < n)) = decide (n ≤ s + p.ttl + p.swr) := by
      rw [← decide_not, decide_eq_decide]
      omega
    simp only [Entry.cached, Page.cached, h₁, h₂, hnz, hnz', ht, decide_true, decide_false,
      Bool.true_and, Bool.false_or, ne_eq, not_false_eq_true, herr, hstale]
    rfl

end Deadlines

/-! ## An untouched entry -/

/-- The walk of the key still ends at the entry `e`, and none of its tags was forgotten. -/
def Untouched (hasher : Hasher) (key : Bytes) (e : Entry) (c : Cache) : Prop :=
  ∃ i, (c.probe (hashBytes hasher key)).find? (ends c (hashBytes hasher key)) = some i ∧
    c.entry i = e ∧ e.state = .occupied ∧ e.tagInvalid c.tag = false

theorem untouched_store (hasher : Hasher) (c : Cache) (key : Bytes) {p : Page} (s : Nat)
    (hfits : p.fits = true) :
    Untouched hasher key (writeEntry hasher c.tag key p s) (store hasher c key p s).1 := by
  obtain ⟨hm, hp, -⟩ := storeSlot_spec hasher c key
  rw [store, if_pos hfits]
  refine ⟨storeSlot hasher c key, find?_eq_some_iff.2 ⟨hm, ?_, fun j hj hend => ?_⟩,
    Function.update_self _ _ _, rfl, ?_⟩
  · simp [ends, writeEntry]
  · have hj' : j ≠ storeSlot hasher c key := by
      rintro rfl
      exact not_mem_passed hj
    have hcl := hp j hj
    simp only [closes, Bool.or_eq_false_iff, decide_eq_false_iff_not] at hcl
    simp [ends, hj', hcl.1, hcl.2] at hend
  · simp [Entry.tagInvalid, writeEntry]

theorem Untouched.peek {hasher : Hasher} {key : Bytes} {e : Entry} {c : Cache}
    (h : Untouched hasher key e c) (n : Nat) :
    (Rcache.peek hasher c key n).2 = if e.expired n then none else some (e.cached n) := by
  obtain ⟨i, hf, rfl, hocc, htag⟩ := h
  simp only [Rcache.peek, peekSlot, peekIn_eq, hf, hocc, htag, Bool.or_false]
  cases (c.entry i).expired n <;> rfl

section Phases

variable {hasher : Hasher} {tag : Nat → TagGen} {key : Bytes} {p : Page} {s n : Nat} {c : Cache}

theorem Untouched.peek_of_le (hu : Untouched hasher key (writeEntry hasher tag key p s) c)
    (hr : p.InRange s) (hn : 0 < p.ttl → n ≤ p.retained s) : (Rcache.peek hasher c key n).2 =
      some (p.cached (0 < p.ttl && s + p.ttl < n && n ≤ s + p.ttl + p.swr)
        (0 < p.ttl && s + p.ttl + p.swr < n)) := by
  rw [hu.peek, if_neg, cached_writeEntry hasher tag key hr]
  rw [expired_writeEntry hasher tag key hr]
  rintro ⟨ht, hlt⟩
  have := hn ht
  omega

theorem Untouched.peek_of_lt (hu : Untouched hasher key (writeEntry hasher tag key p s) c)
    (hr : p.InRange s) (ht : 0 < p.ttl) (hn : p.retained s < n) :
    (Rcache.peek hasher c key n).2 = none := by
  rw [hu.peek, if_pos ((expired_writeEntry hasher tag key hr).2 ⟨ht, hn⟩)]

/-- **Lifetimes mean what the directive says.** A page stored at `s` and untouched since is served
fresh for `ttl` seconds and stale for `swr` more, and as an error fallback until both windows behind
the fresh one are over; with `ttl = 0` it is fresh for ever. -/
theorem lifetime_phases (hu : Untouched hasher key (writeEntry hasher tag key p s) c)
    (hr : p.InRange s) : (p.ttl = 0 → (get hasher c key n).2 = some (p.cached false false)) ∧
    (0 < p.ttl → (n ≤ s + p.ttl → (get hasher c key n).2 = some (p.cached false false)) ∧
      (s + p.ttl < n → n ≤ s + p.ttl + p.swr →
        (get hasher c key n).2 = some (p.cached true false)) ∧
      (s + p.ttl + p.swr < n → (get hasher c key n).2 = none) ∧
      (n ≤ max (s + p.ttl + p.swr) (s + p.ttl + p.sie) →
        ∃ stale errorOnly, (staleOnError hasher c key n).2 = some (p.cached stale errorOnly)) ∧
      (max (s + p.ttl + p.swr) (s + p.ttl + p.sie) < n →
        (staleOnError hasher c key n).2 = none)) := by
  have hget : (get hasher c key n).2 =
      (Rcache.peek hasher c key n).2.filter fun x => !x.errorOnly := rfl
  refine ⟨fun ht => ?_, fun ht => ⟨fun hn => ?_, fun hn hn' => ?_, fun hn => ?_, fun hn => ?_,
    fun hn => ?_⟩⟩
  · rw [hget, hu.peek_of_le hr (by omega)]
    simp [ht, Page.cached]
  · rw [hget, hu.peek_of_le hr fun _ => by rw [Page.retained]; omega]
    have h₁ : ¬ s + p.ttl < n := by omega
    have h₂ : ¬ s + p.ttl + p.swr < n := by omega
    simp [h₁, h₂, Page.cached]
  · rw [hget, hu.peek_of_le hr fun _ => by rw [Page.retained]; omega]
    have h₂ : ¬ s + p.ttl + p.swr < n := by omega
    simp [ht, hn, hn', h₂, Page.cached]
  · rw [hget]
    by_cases hret : p.retained s < n
    · rw [hu.peek_of_lt hr ht hret]
      rfl
    · rw [hu.peek_of_le hr fun _ => by omega]
      simp [ht, hn, Page.cached]
  · exact ⟨_, _, hu.peek_of_le hr fun _ => hn⟩
  · exact hu.peek_of_lt hr ht hn

end Phases

/-- A page of a minute, ten more minutes stale, an hour for errors. -/
def newsPage : Page :=
  { status := 200, headers := [], body := ofString "news", ttl := 60, swr := 600, sie := 3600,
    tags := [ofString "news"], app := none }

theorem lifetime_phases_news :
    let c := (store bytesHash (.init 16) (ofString "k") newsPage 1000).1
    (get bytesHash c (ofString "k") 1060).2 = some (newsPage.cached false false) ∧
      (get bytesHash c (ofString "k") 1061).2 = some (newsPage.cached true false) ∧
      (get bytesHash c (ofString "k") 1661).2 = none ∧
      (staleOnError bytesHash c (ofString "k") 4661).2 = none := by
  have hu := untouched_store bytesHash (.init 16) (ofString "k") (p := newsPage) 1000
    (by decide)
  have hr : newsPage.InRange 1000 := by decide
  exact ⟨((lifetime_phases hu hr).2 (by decide)).1 (by decide),
    ((lifetime_phases hu hr).2 (by decide)).2.1 (by decide) (by decide),
    ((lifetime_phases hu hr).2 (by decide)).2.2.1 (by decide),
    ((lifetime_phases hu hr).2 (by decide)).2.2.2.2 (by decide)⟩

end Askr.Rcache
