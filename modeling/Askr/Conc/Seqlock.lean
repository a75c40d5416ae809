import Askr.Conc.Rely

/-!
# Reading cells that others write

A reader loads one cell after another. `Reads F V α` is such a program over cells `F → V`: its
meaning on cells that stand still is `eval`, and over a shared state it loads each cell in an action
of its own (`Reads.prog`). What it returns is what it would have returned on one snapshot, if that
is still current when it returns (`Reads.valid`).

With a seqlock, writers store to a version counter before they begin and after they end, so a record
with an even count stands still as long as the count does (`Grows`). A reader that finds one even
count before and after its loads has read one state of the record (`Reads.valid_seqlock`).
-/

namespace Conc

/-- A program that only loads cells. -/
inductive Reads (F V α : Type) where
  | ret (a : α)
  /-- Load one cell, and go on with what is in it. -/
  | load (f : F) (next : V → Reads F V α)

namespace Reads

variable {F V α β σ : Type}

def bind : Reads F V α → (α → Reads F V β) → Reads F V β
  | .ret a, k => k a
  | .load f n, k => .load f fun v => (n v).bind k

def map (g : α → β) (p : Reads F V α) : Reads F V β := p.bind fun a => .ret (g a)

/-- The meaning on cells that stand still. -/
def eval (cells : F → V) : Reads F V α → α
  | .ret a => a
  | .load f n => (n (cells f)).eval cells

/-- The cells `fs`, one after another. -/
def loadAll : List F → Reads F V (List V)
  | [] => .ret []
  | f :: fs => .load f fun v => (loadAll fs).map (v :: ·)

/-- The program over a shared state, in which the cells are what `view` shows. -/
def prog (view : σ → F → V) : Reads F V α → Prog σ α
  | .ret a => .ret a
  | .load f n => .read fun s => (n (view s f)).prog view

variable {cells : F → V} {view : σ → F → V}

@[simp] theorem eval_ret (a : α) : (ret a : Reads F V α).eval cells = a := rfl
@[simp] theorem eval_load (f : F) (n : V → Reads F V α) :
    (load f n).eval cells = (n (cells f)).eval cells := rfl

@[simp] theorem eval_bind (p : Reads F V α) (k : α → Reads F V β) :
    (p.bind k).eval cells = (k (p.eval cells)).eval cells := by
  induction p with
  | ret a => rfl
  | load f n ih => exact ih (cells f)

@[simp] theorem eval_map (g : α → β) (p : Reads F V α) :
    (p.map g).eval cells = g (p.eval cells) := eval_bind p _

@[simp] theorem eval_loadAll (fs : List F) : (loadAll fs).eval cells = fs.map cells := by
  induction fs with
  | nil => rfl
  | cons f fs ih => rw [loadAll, eval_load, eval_map, ih, List.map_cons]

@[simp] theorem run_prog (p : Reads F V α) (s : σ) :
    (p.prog view).run s = (s, p.eval (view s)) := by
  induction p with
  | ret a => rfl
  | load f n ih => exact ih (view s f)

variable {R G : σ → σ → Prop} {s : σ} {d : F → V}

theorem guar_prog (hG : ∀ s, G s s) (p : Reads F V α) : (p.prog view).Guar G := by
  induction p with
  | ret a => trivial
  | load f n ih => exact Prog.guar_read hG fun s => ih (view s f)

/-- **Loads under interference**: with `P` kept by the others and `C` (the cells are still those of
the snapshot `d`) not coming back once it is lost, a result that is returned under `C` is what the
program computes from `d`. -/
theorem valid (hG : ∀ s, G s s) {P C : σ → Prop} (hP : ∀ s s', R s s' → P s → P s')
    (hC : ∀ s s', R s s' → P s → C s' → C s) (hview : ∀ s, P s → C s → view s = d)
    (p : Reads F V α) (hs : P s) :
    (p.prog view).Valid R G (fun a s' => P s' ∧ (C s' → a = p.eval d)) s := by
  induction p generalizing P s with
  | ret a => exact ⟨hs, fun _ => rfl⟩
  | load f n ih =>
    refine Prog.valid_read hG fun s' hs' => ?_
    have hrest := ih (view s' f) (P := fun s => P s ∧ (C s → view s' f = d f)) (s := s')
      (fun s s' hr h => ⟨hP s s' hr h.1, fun hc => h.2 (hC s s' hr h.1 hc)⟩)
      (fun s s' hr h => hC s s' hr h.1) (fun s h => hview s h.1)
      ⟨hP s s' hs' hs, fun hc => congrFun (hview s' (hP s s' hs' hs) hc) f⟩
    refine hrest.weaken (fun _ _ => id) (fun _ _ => id) fun a s'' h => ⟨h.1.1, fun hc => ?_⟩
    rw [h.2 hc, h.1.2 hc]
    rfl

theorem valid_stable (hG : ∀ s, G s s) {P : σ → Prop} (hP : ∀ s s', R s s' → P s → P s')
    (hview : ∀ s, P s → view s = d) (p : Reads F V α) (hs : P s) :
    (p.prog view).Valid R G (fun a s' => P s' ∧ a = p.eval d) s :=
  (valid (C := fun _ => True) hG hP (fun _ _ _ _ _ => trivial) (fun s h _ => hview s h) p hs).weaken
    (fun _ _ => id) (fun _ _ => id) fun _ _ h => ⟨h.1, h.2 trivial⟩

end Reads

/-! ## Seqlocks -/

section
variable {F V α σ : Type} {marks : σ → Nat} {view : σ → F → V} {R G : σ → σ → Prop} {s s' s'' : σ}

/-- The marker stores of a record are counted, and a record with an even count stands still until
the next one. -/
def Grows (marks : σ → Nat) (view : σ → F → V) (s s' : σ) : Prop :=
  marks s ≤ marks s' ∧ (marks s' = marks s → marks s % 2 = 0 → view s' = view s)

theorem Grows.refl (s : σ) : Grows marks view s s := ⟨Nat.le_refl _, fun _ _ => rfl⟩

theorem Grows.trans (h : Grows marks view s s') (h' : Grows marks view s' s'') :
    Grows marks view s s'' := by
  refine ⟨Nat.le_trans h.1 h'.1, fun heq heven => ?_⟩
  have hmid : marks s' = marks s := Nat.le_antisymm (heq ▸ h'.1) h.1
  rw [h'.2 (heq.trans hmid.symm) (hmid ▸ heven), h.2 hmid heven]

/-- **The loads of a seqlock reader** that found the count `c` even: if the count is still `c` when
they are done, they have seen the record as it was then. -/
theorem Reads.valid_seqlock (hG : ∀ s, G s s) (hR : ∀ s s', R s s' → Grows marks view s s')
    (p : Reads F V α) (heven : marks s % 2 = 0) : (p.prog view).Valid R G
      (fun a s' => marks s ≤ marks s' ∧ (marks s' = marks s → a = p.eval (view s))) s := by
  refine (Reads.valid (R := R) (d := view s)
    (P := fun s' => Grows marks view s s') (C := fun s' => marks s' = marks s) hG
    (fun _ _ hr h => h.trans (hR _ _ hr)) (fun s₁ s₂ hr h hc => ?_)
    (fun s' h hc => h.2 hc heven) p (.refl s)).weaken (fun _ _ => id) (fun _ _ => id)
    fun a s' h => ⟨h.1.1, h.2⟩
  exact Nat.le_antisymm (hc ▸ (hR _ _ hr).1) h.1

end

end Conc
