import Mathlib.Data.List.Basic
import Mathlib.Tactic.Common

/-!
# Walks along a probe sequence

An open-addressed table is searched along a list of slots, its probe sequence, and the walk ends at
the first slot that closes the chain. `Reach E w i` says that the walk along `w` gets to the slot
`i` before any slot that satisfies `E`; `passed w i` is the part of `w` in front of `i`. A sequence
may visit a slot twice (a table smaller than the window, or an index that wraps), so nothing here
asks for distinct slots.
-/

namespace Probe

open List

variable {ι : Type} {E E' : ι → Prop} {w : List ι} {i j : ι}

/-- The walk along `w` gets to `i` before any slot that satisfies `E`. -/
def Reach (E : ι → Prop) (w : List ι) (i : ι) : Prop :=
  ∃ pre post, w = pre ++ i :: post ∧ ∀ j ∈ pre, ¬ E j

theorem Reach.mem (h : Reach E w i) : i ∈ w := by
  obtain ⟨pre, post, rfl, -⟩ := h
  simp

theorem reach_head : Reach E (i :: w) i := ⟨[], w, rfl, by simp⟩

theorem reach_cons : Reach E (j :: w) i ↔ j = i ∨ (¬ E j ∧ Reach E w i) := by
  constructor
  · rintro ⟨pre, post, he, hp⟩
    cases pre with
    | nil => exact .inl (cons.inj he).1
    | cons a pre =>
      obtain ⟨rfl, rfl⟩ := cons.inj he
      exact .inr ⟨hp _ (by simp), pre, post, rfl, fun x hx => hp x (by simp [hx])⟩
  · rintro (rfl | ⟨hj, pre, post, rfl, hp⟩)
    · exact reach_head
    · refine ⟨j :: pre, post, rfl, ?_⟩
      rintro x hx
      rcases mem_cons.1 hx with rfl | hx
      exacts [hj, hp x hx]

/-- Two slots of one sequence, each with what is in front of it: they are the same slot, or one is
in front of the other. -/
theorem append_cons_cases {pre post pre' post' : List ι}
    (h : pre ++ i :: post = pre' ++ j :: post') : i = j ∨ i ∈ pre' ∨ j ∈ pre := by
  rcases append_eq_append_iff.1 h with ⟨t, rfl, ht⟩ | ⟨t, rfl, ht⟩
  · cases t with
    | nil => exact .inl (cons.inj ht).1
    | cons a t => exact .inr (.inl (by simp [(cons.inj ht).1]))
  · cases t with
    | nil => exact .inl (cons.inj ht).1.symm
    | cons a t => exact .inr (.inr (by simp [(cons.inj ht).1]))

section passed
variable [DecidableEq ι]

/-- The slots a walk along `w` passes before it first gets to `i`. -/
def passed (w : List ι) (i : ι) : List ι := w.takeWhile (· ≠ i)

theorem not_mem_passed : i ∉ passed w i := fun h => by
  have := all_eq_true.1 all_takeWhile i h
  simp at this

theorem mem_of_mem_passed (h : j ∈ passed w i) : j ∈ w :=
  (takeWhile_sublist _).subset h

theorem passed_append (h : i ∈ w) : ∃ post, w = passed w i ++ i :: post := by
  induction w with
  | nil => cases h
  | cons a w ih =>
    by_cases ha : a = i
    · exact ⟨w, by simp [passed, ha]⟩
    · obtain ⟨post, hp⟩ := ih (by simpa [Ne.symm ha] using h)
      refine ⟨post, ?_⟩
      have : passed (a :: w) i = a :: passed w i := by simp [passed, ha]
      rw [this, cons_append, ← hp]

theorem passed_subset {pre post : List ι} : passed (pre ++ i :: post) i ⊆ pre := by
  intro x hx
  induction pre with
  | nil => simp [passed] at hx
  | cons a pre ih =>
    by_cases ha : a = i
    · simp [passed, ha] at hx
    · have : passed (a :: pre ++ i :: post) i = a :: passed (pre ++ i :: post) i := by
        simp [passed, ha]
      rw [this] at hx
      rcases mem_cons.1 hx with rfl | hx
      · simp
      · simp [ih hx]

theorem reach_iff_passed (h : i ∈ w) : Reach E w i ↔ ∀ j ∈ passed w i, ¬ E j := by
  constructor
  · rintro ⟨pre, post, rfl, hp⟩ j hj
    exact hp j (passed_subset hj)
  · intro hp
    obtain ⟨post, hw⟩ := passed_append h
    exact ⟨_, post, hw, hp⟩

theorem find?_eq_some_iff {p : ι → Bool} :
    w.find? p = some i ↔ i ∈ w ∧ p i ∧ ∀ j ∈ passed w i, ¬ p j := by
  induction w with
  | nil => simp
  | cons a w ih =>
    by_cases ha : a = i
    · subst ha
      cases hp : p a <;> simp [passed, hp]
      intro h
      have := find?_some h
      simp [hp] at this
    · have hpass : passed (a :: w) i = a :: passed w i := by simp [passed, ha]
      rw [hpass]
      cases hp : p a with
      | true => simp [hp, ha]
      | false => simp [hp, ih, Ne.symm ha]

theorem mem_passed_or (hi : i ∈ w) (hj : j ∈ w) : i = j ∨ i ∈ passed w j ∨ j ∈ passed w i := by
  obtain ⟨post, h⟩ := passed_append hi
  obtain ⟨post', h'⟩ := passed_append hj
  exact append_cons_cases (h.symm.trans h')

theorem mem_passed_of_find? {p : ι → Bool} (h : w.find? p = some i) (hj : j ∈ w) (hp : p j) :
    j = i ∨ i ∈ passed w j := by
  obtain ⟨hi, -, hpre⟩ := find?_eq_some_iff.1 h
  rcases mem_passed_or hj hi with he | hb | ha
  exacts [.inl he, absurd hp (hpre j hb), .inr ha]

theorem mem_passed_of_not_mem {pre post : List ι} (h : w = pre ++ j :: post) (hi : i ∈ w)
    (hpre : i ∉ pre) : j = i ∨ j ∈ passed w i := by
  rcases mem_passed_or (i := j) (by simp [h]) hi with he | hb | ha
  · exact .inl he
  · exact .inr hb
  · rw [h] at ha
    exact absurd (passed_subset ha) hpre

end passed

end Probe
