import Askr.Policy.Query

/-!
# What a query means to PHP

PHP reads a query as a list of named values, after decoding names and values. `values` is what a
name has in a query, in order. `normalize_query` puts parameters in order unless two have the same
name, and compares names as they are written. Two spellings of one name are two names for it, so
their values may change places: the queries that share a key with `query` all mean the same exactly
when they may not (`Steady`).
-/

namespace Askr.Policy

open Bytes List

def hexValue (b : UInt8) : Option UInt8 :=
  if 48 ≤ b ∧ b ≤ 57 then some (b - 48)
  else if 97 ≤ b ∧ b ≤ 102 then some (b - 87)
  else if 65 ≤ b ∧ b ≤ 70 then some (b - 55)
  else none

/-- Percent decoding, with `+` for a space; a `%` without two digits stands for itself. -/
def urldecode : Bytes → Bytes
  | [] => []
  | 43 :: r => 32 :: urldecode r
  | 37 :: a :: b :: r =>
    match hexValue a, hexValue b with
    | some x, some y => (16 * x + y) :: urldecode r
    | _, _ => 37 :: urldecode (a :: b :: r)
  | b :: r => b :: urldecode r

/-- The value of a parameter: what is behind the first `=`. -/
def pairValue (p : Bytes) : Bytes := (p.dropWhile (· ≠ 61)).drop 1

/-- The name and the value of a parameter as PHP sees them. -/
def decoded (p : Bytes) : Bytes × Bytes := (urldecode (pairName p), urldecode (pairValue p))

/-- The values a list of parameters has for a name, in order. -/
def valuesOf (l : List Bytes) (name : Bytes) : List Bytes :=
  (l.filter fun p => (decoded p).1 = name).map fun p => (decoded p).2

/-- The values a query has for a name, in order, without the parameters on the strip list. -/
def values (query : Bytes) (strip : List Bytes) (name : Bytes) : List Bytes :=
  valuesOf (keptPairs query strip) name

/-- Whenever the parameters are put in order, those of one decoded name have one decoded value. -/
def Steady (query : Bytes) (strip : List Bytes) : Prop :=
  ((keptPairs query strip).map pairName).Nodup →
    ∀ p ∈ keptPairs query strip, ∀ p' ∈ keptPairs query strip,
      (decoded p).1 = (decoded p').1 → (decoded p).2 = (decoded p').2

instance (query : Bytes) (strip : List Bytes) : Decidable (Steady query strip) :=
  inferInstanceAs (Decidable (_ → _))

/-! ## Queries that share a key -/

/-- A parameter that a key can have. -/
def Keepable (strip : List Bytes) (p : Bytes) : Prop :=
  p ≠ [] ∧ stripped strip p = false ∧ (38 : UInt8) ∉ p

theorem keepable_of_mem {query p : Bytes} {strip : List Bytes} (h : p ∈ keptPairs query strip) :
    Keepable strip p := by
  have h₁ := mem_filter.1 h
  have h₂ := mem_filter.1 h₁.1
  exact ⟨by simpa using h₂.2, by simpa using h₁.2, notMem_of_mem_splitOn h₂.1⟩

variable {strip : List Bytes}

theorem keptPairs_intercalate {l : List Bytes}
    (hl : ∀ p ∈ l, Keepable strip p) : keptPairs ([38].intercalate l) strip = l := by
  cases l with
  | nil => rfl
  | cons p l =>
    have hsplit : pairs ([38].intercalate (p :: l)) = p :: l :=
      splitOn_intercalate 38 (fun p hp => (hl p hp).2.2) (cons_ne_nil p l)
    rw [keptPairs_eq_iff.2 (by rw [hsplit]; exact fun p hp => ⟨(hl p hp).1, (hl p hp).2.1⟩), hsplit]

variable {query query' : Bytes}

theorem orderedPairs_of_normalizeQuery
    (h : normalizeQuery query strip = normalizeQuery query' strip) :
    orderedPairs query strip = orderedPairs query' strip := by
  have hkeep : ∀ q : Bytes, ∀ p ∈ orderedPairs q strip, Keepable strip p := fun q p hp =>
    keepable_of_mem ((orderedPairs_perm q strip).mem_iff.1 hp)
  calc orderedPairs query strip
      = keptPairs (normalizeQuery query strip) strip := (keptPairs_intercalate (hkeep query)).symm
    _ = keptPairs (normalizeQuery query' strip) strip := by rw [h]
    _ = orderedPairs query' strip := keptPairs_intercalate (hkeep query')

theorem keptPairs_of_normalizeQuery (h : normalizeQuery query strip = normalizeQuery query' strip) :
    (keptPairs query strip).Perm (keptPairs query' strip) ∧
      (¬ ((keptPairs query strip).map pairName).Nodup →
        keptPairs query strip = keptPairs query' strip) := by
  have hord := orderedPairs_of_normalizeQuery h
  have hperm : (keptPairs query strip).Perm (keptPairs query' strip) :=
    (orderedPairs_perm query strip).symm.trans (hord ▸ orderedPairs_perm query' strip)
  refine ⟨hperm, fun hdup => ?_⟩
  have hdup' : ¬ ((keptPairs query' strip).map pairName).Nodup := by
    rwa [← (hperm.map pairName).nodup_iff]
  rwa [orderedPairs, orderedPairs, if_neg (by rwa [allDifferent_sort]),
    if_neg (by rwa [allDifferent_sort])] at hord

theorem normalizeQuery_of_perm (hnd : ((keptPairs query strip).map pairName).Nodup)
    (hperm : (keptPairs query strip).Perm (keptPairs query' strip)) :
    normalizeQuery query strip = normalizeQuery query' strip := by
  have hnd' := (hperm.map pairName).nodup_iff.1 hnd
  rw [normalizeQuery, normalizeQuery, orderedPairs, orderedPairs,
    if_pos ((allDifferent_sort _).2 hnd), if_pos ((allDifferent_sort _).2 hnd')]
  congr 1
  exact ((sort_perm _).trans (hperm.trans (sort_perm _).symm)).eq_of_pairwise
    (fun a b _ _ => List.le_antisymm) (sorted_sort _) (sorted_sort _)

theorem normalizeQuery_of_kept (hperm : (keptPairs query strip).Perm (keptPairs query' strip))
    (hdup : ¬ ((keptPairs query strip).map pairName).Nodup →
      keptPairs query strip = keptPairs query' strip) :
    normalizeQuery query strip = normalizeQuery query' strip := by
  by_cases hnd : ((keptPairs query strip).map pairName).Nodup
  · exact normalizeQuery_of_perm hnd hperm
  · rw [normalizeQuery, orderedPairs, hdup hnd]
    rfl

/-- **One key for one set of parameters.** Queries share a key exactly when they have the same
parameters, in the same order where a name repeats; and the key is itself such a query. -/
theorem normalizeQuery_canonical (query : Bytes) (strip : List Bytes) :
    (∀ query', normalizeQuery query strip = normalizeQuery query' strip ↔
      (keptPairs query strip).Perm (keptPairs query' strip) ∧
        (¬ ((keptPairs query strip).map pairName).Nodup →
          keptPairs query strip = keptPairs query' strip)) ∧
      normalizeQuery (normalizeQuery query strip) strip = normalizeQuery query strip := by
  refine ⟨fun query' => ⟨keptPairs_of_normalizeQuery, fun h => normalizeQuery_of_kept h.1 h.2⟩, ?_⟩
  have hkept : keptPairs (normalizeQuery query strip) strip = orderedPairs query strip :=
    keptPairs_intercalate fun p hp =>
      keepable_of_mem ((orderedPairs_perm query strip).mem_iff.1 hp)
  refine (normalizeQuery_of_kept ?_ fun hdup => ?_).symm
  all_goals rw [hkept]
  · exact (orderedPairs_perm query strip).symm
  · rw [orderedPairs, if_neg (by rwa [allDifferent_sort])]

/-! ## Their values -/

theorem valuesOf_perm {l l' : List Bytes} (hperm : l.Perm l')
    (hl : ∀ p ∈ l, ∀ p' ∈ l, (decoded p).1 = (decoded p').1 → (decoded p).2 = (decoded p').2)
    (name : Bytes) : valuesOf l name = valuesOf l' name := by
  have hp : (valuesOf l name).Perm (valuesOf l' name) := (hperm.filter _).map _
  cases hv : valuesOf l name with
  | nil => rw [hv] at hp; exact hp.nil_eq
  | cons v vs =>
    have hall : ∀ w ∈ valuesOf l name, w = v := by
      intro w hw
      obtain ⟨p, hp, rfl⟩ := mem_map.1 hw
      obtain ⟨p', hp', rfl⟩ := mem_map.1 (hv ▸ mem_cons_self : v ∈ valuesOf l name)
      simp only [mem_filter, decide_eq_true_eq] at hp hp'
      exact hl p hp.1 p' hp'.1 (hp.2.trans hp'.2.symm)
    rw [← hv, eq_replicate_of_mem hall,
      eq_replicate_of_mem fun w hw => hall w (hp.mem_iff.2 hw), hp.length_eq]

/-- **The queries that share a key with `query` mean the same to PHP exactly when it is steady**: a
raw name repeats, or parameters of one decoded name have one decoded value. -/
theorem same_meaning_iff (query : Bytes) (strip : List Bytes) :
    (∀ query', normalizeQuery query strip = normalizeQuery query' strip →
      ∀ name, values query strip name = values query' strip name) ↔ Steady query strip := by
  constructor
  · intro h hnd p hp p' hp' hname
    by_contra hne
    obtain ⟨rest, hrest⟩ : ∃ rest, (keptPairs query strip).Perm (p :: p' :: rest) := by
      have hpp : p' ≠ p := fun h => hne (h ▸ rfl)
      have hp'' : p' ∈ (keptPairs query strip).erase p := (mem_erase_of_ne hpp).2 hp'
      exact ⟨_, (perm_cons_erase hp).trans ((perm_cons_erase hp'').cons p)⟩
    have hvalues : ∀ l, (keptPairs query strip).Perm l →
        values query strip (decoded p).1 = valuesOf l (decoded p).1 := by
      intro l hl
      have hkept : keptPairs ([38].intercalate l) strip = l :=
        keptPairs_intercalate fun q hq => keepable_of_mem (hl.mem_iff.2 hq)
      have := h ([38].intercalate l) (normalizeQuery_of_perm hnd (by rwa [hkept])) (decoded p).1
      rwa [values, values, hkept] at this
    have h₁ := hvalues _ hrest
    rw [hvalues _ (hrest.trans (.swap p' p rest))] at h₁
    simp only [valuesOf, hname, filter_cons_of_pos, decide_true, map_cons,
      List.cons.injEq] at h₁
    exact hne h₁.1.symm
  · intro hsteady query' hkey name
    obtain ⟨hperm, hsame⟩ := keptPairs_of_normalizeQuery hkey
    by_cases hnd : ((keptPairs query strip).map pairName).Nodup
    · exact valuesOf_perm hperm (hsteady hnd) name
    · rw [values, values, hsame hnd]

/-- Two spellings of `a`: the key is the same in both orders, and PHP reads another last value. -/
theorem spellings_share_key : ¬ ∀ (strip : List Bytes) (query query' : Bytes),
      normalizeQuery query strip = normalizeQuery query' strip →
      ∀ name, values query strip name = values query' strip name := by
  intro h
  have := h [] (ofString "a=1&%61=2") (ofString "%61=2&a=1") (by decide) (ofString "a")
  exact absurd this (by decide)

end Askr.Policy
