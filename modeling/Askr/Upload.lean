import Askr.Data.Bytes

/-!
# Multipart uploads

`upload.rs`: what is kept of a field when the body ends in the middle of it.
-/

namespace Askr.Upload

open List

/-- The line that ends a part. -/
def nextBoundary (boundary : Bytes) : Bytes := 10 :: 45 :: 45 :: boundary

/-- `strip_suffix(b"\r")`, or the text as it is. -/
def stripCr (s : Bytes) : Bytes := if s.getLast? = some 13 then s.dropLast else s

def restOfField (value boundary : Bytes) : Bytes :=
  let next := nextBoundary boundary
  let start := value.length - next.length
  let stops := fun i => (value.drop i).isPrefixOf next
  match (List.range' start (value.length - start)).find? stops with
  | some i => stripCr (value.take i)
  | none => value

/-- A tail of the value that could still have become the next boundary. -/
structure Tail (value boundary t : Bytes) : Prop where
  suffix : t <:+ value
  ne_nil : t ≠ []
  starts : t <+: nextBoundary boundary

theorem stripCr_eq (s : Bytes) : (∃ front, s = front ++ [13] ∧ stripCr s = front) ∨
      (∀ front, s ≠ front ++ [13]) ∧ stripCr s = s := by
  by_cases h : s.getLast? = some 13
  · obtain ⟨front, rfl⟩ := getLast?_eq_some_iff.1 h
    exact .inl ⟨front, rfl, by simp [stripCr]⟩
  · exact .inr ⟨fun front hs => h (by simp [hs]), if_neg h⟩

/-- A tail is a place where the search stops, and the other way round. -/
theorem tail_iff {value boundary t : Bytes} : Tail value boundary t ↔
    ∃ i, value.length - (nextBoundary boundary).length ≤ i ∧ i < value.length ∧
      value.drop i <+: nextBoundary boundary ∧ t = value.drop i := by
  constructor
  · rintro ⟨⟨p, rfl⟩, hne, hpre⟩
    have hpos := length_pos_of_ne_nil hne
    have hle := hpre.length_le
    exact ⟨p.length, by simp; omega, by simp; omega, by simpa using hpre, by simp⟩
  · rintro ⟨i, -, hi, hpre, rfl⟩
    exact ⟨drop_suffix i value, by simpa using hi, hpre⟩

/-- The longest tail that could have become a boundary goes, with the CR in front of it. -/
theorem restOfField_eq (value boundary : Bytes) :
    (∃ kept t, value = kept ++ t ∧ Tail value boundary t ∧
      (∀ t', Tail value boundary t' → t'.length ≤ t.length) ∧
      ((∃ front, kept = front ++ [13] ∧ restOfField value boundary = front) ∨
        (∀ front, kept ≠ front ++ [13]) ∧ restOfField value boundary = kept)) ∨
    (∀ t, ¬ Tail value boundary t) ∧ restOfField value boundary = value := by
  rw [restOfField]
  cases hf : (range' (value.length - (nextBoundary boundary).length) _).find? fun i =>
      (value.drop i).isPrefixOf (nextBoundary boundary) with
  | none =>
    refine .inr ⟨fun t ht => ?_, rfl⟩
    obtain ⟨i, hstart, hi, hpre, -⟩ := tail_iff.1 ht
    exact find?_eq_none.1 hf i (by simp; omega) (List.isPrefixOf_iff_prefix.2 hpre)
  | some i =>
    obtain ⟨hpre, hi, hfirst⟩ := find?_range'_eq_some.1 hf
    have hi' := mem_range'_1.1 hi
    refine .inl ⟨value.take i, value.drop i, (take_append_drop i value).symm,
      tail_iff.2 ⟨i, hi'.1, by omega, isPrefixOf_iff_prefix.1 hpre, rfl⟩, fun t' ht' => ?_,
      stripCr_eq _⟩
    obtain ⟨j, hstart, hj, hpre', rfl⟩ := tail_iff.1 ht'
    by_contra hlt
    have hji : j < i := by simp at hlt; omega
    have := hfirst j hstart hji
    rw [List.isPrefixOf_iff_prefix.2 hpre'] at this
    cases this

end Askr.Upload
