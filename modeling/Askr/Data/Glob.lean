import Mathlib.Data.List.Forall2

/-!
# Glob patterns

A pattern is a list of letters, two of which are not letters of the text: `many` stands for any
string and `one` for any single letter. `Matches p t` is that the text can be cut into one piece for
each letter of the pattern. The lemmas read a match from the front of the pattern.
-/

namespace Glob

open List

variable {α : Type _} (many one : α)

/-- The letter `a` of a pattern stands for the string `u`. -/
def Stands (a : α) (u : List α) : Prop :=
  a = many ∨ a = one ∧ u.length = 1 ∨ u = [a]

/-- The text can be split so that each letter of the pattern stands for its piece. -/
def Matches (p t : List α) : Prop :=
  ∃ us, List.Forall₂ (Stands many one) p us ∧ us.flatten = t

variable {many one} {a : α} {p q t u : List α}

theorem stands_many : Stands many one many u := .inl rfl

theorem stands_singleton {b : α} (h : a = one ∨ a = b) : Stands many one a [b] := by
  rcases h with h | rfl
  · exact .inr (.inl ⟨h, rfl⟩)
  · exact .inr (.inr rfl)

theorem stands_iff_of_ne (ha : a ≠ many) :
    Stands many one a u ↔ ∃ b, u = [b] ∧ (a = one ∨ a = b) := by
  constructor
  · rintro (h | ⟨h, hu⟩ | rfl)
    · exact absurd h ha
    · obtain ⟨b, rfl⟩ := length_eq_one_iff.1 hu
      exact ⟨b, rfl, .inl h⟩
    · exact ⟨a, rfl, .inr rfl⟩
  · rintro ⟨b, rfl, h⟩
    exact stands_singleton h

theorem matches_nil : Matches many one [] t ↔ t = [] := by
  constructor
  · rintro ⟨us, h, rfl⟩
    cases h
    rfl
  · rintro rfl
    exact ⟨[], .nil, rfl⟩

theorem matches_cons : Matches many one (a :: p) t ↔
      ∃ u s, t = u ++ s ∧ Stands many one a u ∧ Matches many one p s := by
  constructor
  · rintro ⟨_, h, rfl⟩
    obtain ⟨u, us, hu, hus, rfl⟩ := forall₂_cons_left_iff.1 h
    exact ⟨u, us.flatten, flatten_cons, hu, us, hus, rfl⟩
  · rintro ⟨u, _, rfl, hu, us, hus, rfl⟩
    exact ⟨u :: us, .cons hu hus, flatten_cons⟩

theorem matches_many_cons :
    Matches many one (many :: p) t ↔ ∃ s, s <:+ t ∧ Matches many one p s := by
  rw [matches_cons]
  constructor
  · rintro ⟨u, s, rfl, -, h⟩
    exact ⟨s, suffix_append u s, h⟩
  · rintro ⟨s, ⟨u, rfl⟩, h⟩
    exact ⟨u, s, rfl, stands_many, h⟩

theorem matches_cons_of_ne (ha : a ≠ many) : Matches many one (a :: p) t ↔
      ∃ b s, t = b :: s ∧ (a = one ∨ a = b) ∧ Matches many one p s := by
  rw [matches_cons]
  constructor
  · rintro ⟨u, s, rfl, hu, h⟩
    obtain ⟨b, rfl, hb⟩ := (stands_iff_of_ne ha).1 hu
    exact ⟨b, s, rfl, hb, h⟩
  · rintro ⟨b, s, rfl, hb, h⟩
    exact ⟨[b], s, rfl, stands_singleton hb, h⟩

theorem matches_nil_right : Matches many one p [] ↔ ∀ a ∈ p, a = many := by
  induction p with
  | nil => simp [matches_nil]
  | cons a p ih =>
    by_cases ha : a = many
    · subst ha
      simp [matches_many_cons, ih]
    · simp [matches_cons_of_ne ha, ha]

end Glob
