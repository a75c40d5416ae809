import Askr.Policy.Store
import Askr.Rcache.Lifetime

/-!
# The deadlines of an accepted directive

The three numbers of an `Askr-Cache` value go from the parser into the sums of `store` as they are,
and any word is accepted. The sums are those of machine words, so a deadline past the last word is
an early one: it is neither the sum nor the last word (`u64Add_lt_of_le`). The deadlines of a
directive are right exactly when the latest of them is a word.
-/

namespace Askr.Policy

open Bytes Rcache

theorem parseU64_lt {s : Bytes} {n : Nat} (h : parseU64 s = some n) : n < U64 := by
  simpa using (Option.filter_eq_some_iff.1 h).2

theorem directiveSecs_lt (v name : Bytes) : directiveSecs v name < U64 := by
  rw [directiveSecs]
  generalize h : Option.bind (cut name v) _ = secs
  cases secs with
  | none => decide
  | some n =>
    obtain ⟨p, -, hp⟩ := Option.bind_eq_some_iff.1 h
    exact parseU64_lt hp

theorem parseCacheDirective_lt {raw : Bytes} {d : Directive}
    (h : parseCacheDirective raw = some d) : d.ttl < U64 ∧ d.swr < U64 ∧ d.sie < U64 := by
  obtain ⟨ttl, hfind, rfl⟩ := Option.map_eq_some_iff.1 h
  obtain ⟨t, -, hparse⟩ := List.exists_of_findSome?_eq_some hfind
  exact ⟨parseU64_lt hparse, directiveSecs_lt _ _,
    Nat.max_lt.2 ⟨directiveSecs_lt _ _, directiveSecs_lt _ _⟩⟩

/-- The deadlines of an entry are those of its directive, or the last word. An error window of no
length is off. -/
structure ExactDeadlines (d : Directive) (now : Nat) (e : Entry) : Prop where
  expires : e.expiresAt = min (now + d.ttl) (U64 - 1)
  stale : e.staleUntil = min (now + d.ttl + d.swr) (U64 - 1)
  error : 0 < d.sie → e.errorUntil = min (now + d.ttl + d.sie) (U64 - 1)

theorem u64Add_lt_of_le {a b : Nat} (ha : a < U64) (hb : b < U64) (h : U64 ≤ a + b) :
    u64Add a b < U64 - 1 := by
  rw [u64Add, Nat.mod_eq_sub_mod h, Nat.mod_eq_of_lt (by omega)]
  omega

section

variable (hasher : Hasher) (tag : Nat → TagGen) (key : Bytes) (a : StoreArgs) (d : Directive)
  (status : Nat) (headers : Headers) (body : Bytes) {now : Nat}

theorem exact_of_inRange (ht : 0 < d.ttl) (hr : now + d.ttl + max d.swr d.sie < U64) :
    ExactDeadlines d now (writeEntry hasher tag key (a.page d status headers body) now) := by
  obtain ⟨h₁, h₂, h₃⟩ := writeEntry_deadlines hasher tag key
    (p := a.page d status headers body) ht hr
  simp only [StoreArgs.page] at h₁ h₂ h₃
  refine ⟨h₁.trans ?_, h₂.trans ?_, fun hs => (h₃.trans (if_pos hs)).trans ?_⟩ <;> omega

theorem inRange_of_exact (hd : d.ttl < U64 ∧ d.swr < U64 ∧ d.sie < U64) (hnow : now < U64)
    (ht : 0 < d.ttl)
    (h : ExactDeadlines d now (writeEntry hasher tag key (a.page d status headers body) now)) :
    now + d.ttl + max d.swr d.sie < U64 := by
  obtain ⟨hexp, hstale, herr⟩ := h
  simp only [writeEntry, Page.expires, StoreArgs.page, gt_iff_lt, ht, if_true, true_and] at *
  have h₁ : now + d.ttl < U64 := by
    by_contra hge
    have := u64Add_lt_of_le hnow hd.1 (by omega)
    omega
  rw [u64Add_of_lt h₁] at hstale herr
  have h₂ : now + d.ttl + d.swr < U64 := by
    by_contra hge
    have := u64Add_lt_of_le h₁ hd.2.1 (by omega)
    rw [if_pos (by omega)] at hstale
    omega
  have h₃ : now + d.ttl + d.sie < U64 := by
    by_contra hge
    have hs : 0 < d.sie := by omega
    have := u64Add_lt_of_le h₁ hd.2.2 (by omega)
    have := herr hs
    rw [if_pos hs] at this
    omega
  omega

end

/-- **The deadlines of an accepted directive are right exactly when the latest is a word**; and
then a longer `ttl` is not an earlier deadline. -/
theorem deadlines_exact_iff (hasher : Hasher) (tag : Nat → TagGen) (key : Bytes) (a : StoreArgs)
    (raw : Bytes) {d : Directive} (hraw : parseCacheDirective raw = some d) (status : Nat)
    (headers : Headers) (body : Bytes) {now : Nat} (hnow : now < U64) (ht : 0 < d.ttl) :
    (ExactDeadlines d now (writeEntry hasher tag key (a.page d status headers body) now) ↔
      now + d.ttl + max d.swr d.sie < U64) ∧
    (now + d.ttl + max d.swr d.sie < U64 → ∀ d' : Directive, 0 < d'.ttl → d'.ttl ≤ d.ttl →
      (writeEntry hasher tag key (a.page d' status headers body) now).expiresAt ≤
        (writeEntry hasher tag key (a.page d status headers body) now).expiresAt) := by
  refine ⟨⟨inRange_of_exact _ _ _ a d _ _ _ (parseCacheDirective_lt hraw) hnow ht,
    exact_of_inRange _ _ _ a d _ _ _ ht⟩, fun hr d' ht' hle => ?_⟩
  rw [(exact_of_inRange hasher tag key a d status headers body ht hr).expires]
  simp only [writeEntry, Page.expires, StoreArgs.page, gt_iff_lt, ht', if_true]
  rw [u64Add_of_lt (by omega)]
  omega

/-- The arguments of a `maybe_store` without anything special. -/
def plainArgs : StoreArgs :=
  { key := ofString "k", resp := { status := 200, headers := [], body := [] }, acceptEncoding := []
    varyUa := false, rule := none, app := appA, requestHeaders := [] }

theorem deadlines_exact_minute : ExactDeadlines { ttl := 60, swr := 600, sie := 0, tags := [] } 1000
      (writeEntry Ns.bytesHash (fun _ => ⟨0, 0⟩) (ofString "k")
        (plainArgs.page { ttl := 60, swr := 600, sie := 0, tags := [] } 200 [] []) 1000) :=
  (deadlines_exact_iff Ns.bytesHash (fun _ => ⟨0, 0⟩) (ofString "k") plainArgs
    (ofString "60, swr=600") rfl 200 [] [] (by decide) (by decide)).1.2 (by decide)

/-- The largest lifetime, asked for at second 1000, is over at second 999. -/
theorem largest_ttl_expires_early :
    ¬ ∀ (raw : Bytes) (d : Directive), parseCacheDirective raw = some d →
      ∀ now < U64, 0 < d.ttl → ∀ (hasher : Hasher) (tag : Nat → TagGen) (key : Bytes)
        (a : StoreArgs) (status : Nat) (headers : Headers) (body : Bytes),
        ExactDeadlines d now (writeEntry hasher tag key (a.page d status headers body) now) := by
  intro h
  have := (h (ofString "18446744073709551615") { ttl := U64 - 1, swr := 0, sie := 0, tags := [] }
    rfl 1000 (by decide) (by decide) Ns.bytesHash (fun _ => ⟨0, 0⟩) (ofString "k") plainArgs
    200 [] []).expires
  exact absurd this (by decide)

end Askr.Policy
