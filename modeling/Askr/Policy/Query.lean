import Askr.Data.Sort

/-!
# The query string of a cache key

`normalize_query` of `cache_policy.rs`: parameters on the strip list and empty parameters are
dropped, and what is left is sorted, unless a name repeats. A query that comes out as it went in is
one that `Normal` describes: nothing to drop, and in order already or not to be reordered
(`normalizeQuery_eq_self_iff`).
-/

namespace Askr.Policy

open Bytes List

/-- `name_matches`: a name or, with a trailing `*`, the start of one, without regard to case. -/
def nameMatches (pat name : Bytes) : Bool :=
  match pat.getLast? with
  | some 42 =>
    pat.dropLast.length ≤ name.length &&
      eqIgnoreAsciiCase (name.take pat.dropLast.length) pat.dropLast
  | _ => eqIgnoreAsciiCase name pat

/-- The name of a parameter: what is in front of the first `=`. -/
def pairName (p : Bytes) : Bytes := p.takeWhile (· ≠ 61)

/-- Is the parameter on the strip list? -/
def stripped (strip : List Bytes) (p : Bytes) : Bool := strip.any (nameMatches · (pairName p))

def pairs (query : Bytes) : List Bytes := query.splitOn 38

def keptPairs (query : Bytes) (strip : List Bytes) : List Bytes :=
  ((pairs query).filter (· ≠ [])).filter fun p => !stripped strip p

/-- The parameters in the order of the key. -/
def orderedPairs (query : Bytes) (strip : List Bytes) : List Bytes :=
  if allDifferent (sort ((keptPairs query strip).map pairName)) then sort (keptPairs query strip)
  else keptPairs query strip

def normalizeQuery (query : Bytes) (strip : List Bytes) : Bytes :=
  [38].intercalate (orderedPairs query strip)

/-- A query that `normalize_query` has nothing to do for: no parameter is empty or stripped, and the
parameters are in order, or a name repeats. -/
structure Normal (query : Bytes) (strip : List Bytes) : Prop where
  kept : ∀ p ∈ pairs query, p ≠ [] ∧ stripped strip p = false
  order : ((pairs query).map pairName).Nodup → Sorted (pairs query)

theorem orderedPairs_perm (query : Bytes) (strip : List Bytes) :
    (orderedPairs query strip).Perm (keptPairs query strip) := by
  rw [orderedPairs]
  split
  exacts [sort_perm _, .refl _]

variable {query : Bytes} {strip : List Bytes}

theorem keptPairs_eq_iff : keptPairs query strip = pairs query ↔
      ∀ p ∈ pairs query, p ≠ [] ∧ stripped strip p = false := by
  rw [keptPairs, filter_filter, filter_eq_self]
  simp [and_comm]

theorem keptPairs_eq_of_length (h : (keptPairs query strip).length = (pairs query).length) :
    keptPairs query strip = pairs query := by
  have hsub : (keptPairs query strip).Sublist (pairs query) :=
    filter_sublist.trans filter_sublist
  exact hsub.eq_of_length h

theorem amp_notMem : ∀ p ∈ orderedPairs query strip, (38 : UInt8) ∉ p := by
  intro p hp
  have hmem := (orderedPairs_perm query strip).mem_iff.1 hp
  exact notMem_of_mem_splitOn (mem_of_mem_filter (mem_of_mem_filter hmem))

theorem normalizeQuery_eq_self_iff {query : Bytes} {strip : List Bytes} (hne : query ≠ []) :
    normalizeQuery query strip = query ↔ Normal query strip := by
  constructor
  · intro h
    have hsome : orderedPairs query strip ≠ [] := by
      intro hnil
      rw [normalizeQuery, hnil] at h
      exact hne h.symm
    have hpairs : orderedPairs query strip = pairs query := by
      have hsplit : pairs (normalizeQuery query strip) = orderedPairs query strip :=
        splitOn_intercalate 38 amp_notMem hsome
      rw [← hsplit, h]
    have hkept : keptPairs query strip = pairs query :=
      keptPairs_eq_of_length ((orderedPairs_perm query strip).length_eq.symm.trans
        (congrArg length hpairs))
    refine ⟨keptPairs_eq_iff.1 hkept, fun hnd => ?_⟩
    rw [orderedPairs, hkept, if_pos ((allDifferent_sort _).2 hnd)] at hpairs
    exact sort_eq_self_iff.1 hpairs
  · intro h
    have hkept := keptPairs_eq_iff.2 h.kept
    rw [normalizeQuery, orderedPairs, hkept]
    split
    · rename_i hdiff
      rw [sort_eq_self_iff.2 (h.order ((allDifferent_sort _).1 hdiff))]
      exact intercalate_splitOn 38
    · exact intercalate_splitOn 38

end Askr.Policy
