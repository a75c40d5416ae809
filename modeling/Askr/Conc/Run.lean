import Mathlib.Data.List.Basic
import Mathlib.Tactic.Common

/-!
# Runs of a deterministic system

A system is a function `step` from a state and an input to the next state; a run is a list of
inputs. `Along step C s es` says that every input of the run meets `C` in the state it is taken in.
`Along.inv` is the induction over such runs: what every step keeps holds at the end; `Along.sim` is
the same for two systems that take the same inputs. Every prefix of such a run is one
(`Along.of_prefix`). `runs_filter` is the induction over two runs, one of which is the other with
inputs left out.
-/

namespace Run

variable {σ ι : Type} {step : σ → ι → σ} {C C' : σ → ι → Prop}

def runs (step : σ → ι → σ) (s : σ) (es : List ι) : σ := es.foldl step s

@[simp] theorem runs_nil (s : σ) : runs step s [] = s := rfl
@[simp] theorem runs_cons (s : σ) (e : ι) (es : List ι) :
    runs step s (e :: es) = runs step (step s e) es := rfl
theorem runs_append (s : σ) (es es' : List ι) :
    runs step s (es ++ es') = runs step (runs step s es) es' := List.foldl_append

/-- Every input of the run meets `C` in the state it is taken in. -/
def Along (step : σ → ι → σ) (C : σ → ι → Prop) : σ → List ι → Prop
  | _, [] => True
  | s, e :: es => C s e ∧ Along step C (step s e) es

instance decidableAlong [∀ s e, Decidable (C s e)] :
    (s : σ) → (es : List ι) → Decidable (Along step C s es)
  | _, [] => .isTrue trivial
  | s, e :: es => @instDecidableAnd _ _ _ (decidableAlong (step s e) es)

/-- **The induction over runs.** What every step that meets `C` keeps holds at the end of a run all
of whose steps meet `C`. -/
theorem Along.inv {I : σ → Prop} (hI : ∀ s e, C s e → I s → I (step s e)) {s : σ} {es : List ι}
    (hes : Along step C s es) (hs : I s) : I (runs step s es) := by
  induction es generalizing s with
  | nil => exact hs
  | cons e es ih => exact ih hes.2 (hI s e hes.1 hs)

/-- Two systems with the same inputs: a relation that every step which meets `C` keeps. -/
theorem Along.sim {τ : Type} {step' : τ → ι → τ} {R : σ → τ → Prop}
    (hR : ∀ s t e, C s e → R s t → R (step s e) (step' t e)) {s : σ} {t : τ} {es : List ι}
    (hes : Along step C s es) (h : R s t) : R (runs step s es) (runs step' t es) := by
  induction es generalizing s t with
  | nil => exact h
  | cons e es ih => exact ih hes.2 (hR s t e hes.1 h)

/-- The induction over runs that are under no condition. -/
theorem runs_inv {I : σ → Prop} (hI : ∀ s e, I s → I (step s e)) {s : σ} (es : List ι)
    (hs : I s) : I (runs step s es) := by
  induction es generalizing s with
  | nil => exact hs
  | cons e es ih => exact ih (hI s e hs)

theorem along_append {s : σ} {es es' : List ι} :
    Along step C s (es ++ es') ↔ Along step C s es ∧ Along step C (runs step s es) es' := by
  induction es generalizing s with
  | nil => simp [Along]
  | cons e es ih => simp only [List.cons_append, Along, ih, runs_cons, and_assoc]

theorem Along.of_prefix {s : σ} {es es' : List ι} (h : Along step C s es) (hp : es' <+: es) :
    Along step C s es' := by
  obtain ⟨es₂, rfl⟩ := hp
  exact (along_append.1 h).1

theorem Along.mono (hC : ∀ s e, C s e → C' s e) {s : σ} {es : List ι} (h : Along step C s es) :
    Along step C' s es := by
  induction es generalizing s with
  | nil => trivial
  | cons e es ih => exact ⟨hC _ _ h.1, ih h.2⟩

theorem Along.shows {I : σ → Prop} {D : σ → ι → Prop} (hI : ∀ s e, C s e → I s → I (step s e))
    (hD : ∀ s e, C s e → I s → D s e) {s : σ} {es : List ι} (hes : Along step C s es) (hs : I s) :
    Along step D s es := by
  induction es generalizing s with
  | nil => trivial
  | cons e es ih => exact ⟨hD s e hes.1 hs, ih hes.2 (hI s e hes.1 hs)⟩

/-- Conditions that come to the same as long as an invariant holds, which is kept as long as they
are met. -/
theorem Along.iff {I : σ → Prop} {D D' : σ → ι → Prop}
    (hI : ∀ s e, C s e → I s → D s e → I (step s e))
    (hD : ∀ s e, C s e → I s → (D s e ↔ D' s e)) {s : σ} {es : List ι} (hes : Along step C s es)
    (hs : I s) : Along step D s es ↔ Along step D' s es := by
  induction es generalizing s with
  | nil => exact Iff.rfl
  | cons e es ih =>
    constructor
    · rintro ⟨h, hrest⟩
      exact ⟨(hD s e hes.1 hs).1 h, (ih hes.2 (hI s e hes.1 hs h)).1 hrest⟩
    · rintro ⟨h', hrest⟩
      have h := (hD s e hes.1 hs).2 h'
      exact ⟨h, (ih hes.2 (hI s e hes.1 hs h)).2 hrest⟩

theorem Along.and {s : σ} {es : List ι} (h : Along step C s es) (h' : Along step C' s es) :
    Along step (fun s e => C s e ∧ C' s e) s es := by
  induction es generalizing s with
  | nil => trivial
  | cons e es ih => exact ⟨⟨h.1, h'.1⟩, ih h.2 h'.2⟩

theorem along_of_mem {D : ι → Prop} (s : σ) {es : List ι} (hD : ∀ e ∈ es, D e) :
    Along step (fun _ e => D e) s es := by
  induction es generalizing s with
  | nil => trivial
  | cons e es ih => exact ⟨hD e (.head _), ih _ fun x hx => hD x (.tail _ hx)⟩

theorem Along.and_mem {D : ι → Prop} {s : σ} {es : List ι} (h : Along step C s es)
    (hD : ∀ e ∈ es, D e) : Along step (fun s e => C s e ∧ D e) s es := by
  induction es generalizing s with
  | nil => trivial
  | cons e es ih => exact ⟨⟨h.1, hD e (.head _)⟩, ih h.2 fun x hx => hD x (.tail _ hx)⟩

/-- **Unwinding.** Inputs are left out of a run, and a relation between the run with them and the
run without them holds at the end: an input that is kept keeps it, and one that is left out keeps it
by itself. -/
theorem runs_filter {R : σ → σ → Prop} {keep : ι → Bool}
    (hkeep : ∀ s t e, keep e = true → C s e → C t e → R s t → R (step s e) (step t e))
    (hdrop : ∀ s t e, keep e = false → C s e → R s t → R (step s e) t) {s t : σ} {es : List ι}
    (hs : Along step C s es) (ht : Along step C t (es.filter keep)) (h : R s t) :
    R (runs step s es) (runs step t (es.filter keep)) := by
  induction es generalizing s t with
  | nil => exact h
  | cons e es ih =>
    cases he : keep e with
    | true =>
      rw [List.filter_cons_of_pos he] at ht ⊢
      exact ih hs.2 ht.2 (hkeep s t e he hs.1 ht.1 h)
    | false =>
      rw [List.filter_cons_of_neg (by simp [he])] at ht ⊢
      exact ih hs.2 ht (hdrop s t e he hs.1 h)

section lift
variable {τ : Type} {step' : τ → ι → τ} {f : τ → σ}

theorem runs_lift (hf : ∀ t e, f (step' t e) = step (f t) e) (t : τ) (es : List ι) :
    f (runs step' t es) = runs step (f t) es := by
  induction es generalizing t with
  | nil => rfl
  | cons e es ih => rw [runs_cons, runs_cons, ih, hf]

theorem Along.lift (hf : ∀ t e, f (step' t e) = step (f t) e) {t : τ} {es : List ι}
    (h : Along step C (f t) es) : Along step' (fun t e => C (f t) e) t es := by
  induction es generalizing t with
  | nil => trivial
  | cons e es ih => exact ⟨h.1, ih (hf t e ▸ h.2)⟩

end lift

end Run
