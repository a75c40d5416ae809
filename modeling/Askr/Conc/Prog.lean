import Mathlib.Data.List.Basic
import Mathlib.Tactic.Common

/-!
# Resumption programs

A call that works on shared memory is a *resumption*: it has returned, or it is about to run one
atomic action, after which it is another resumption. `Prog σ α` is that type, for a shared state `σ`
and a result `α`; an action is an update of the state and a continuation chosen by the state that it
saw.

`Prog.run` runs a program to its end with nothing in between, `Pool` interleaves many. `Prog.Guar G`
bounds what every action of a program does to the state; `Prog.Lifts φ` says that a program does,
action by action, what another one does to the image of the state under `φ`.
-/

namespace Conc

/-- A program over the shared state `σ` that returns an `α`, cut at its atomic actions. -/
inductive Prog (σ α : Type) where
  /-- The program has returned. -/
  | ret (a : α)
  /-- One atomic action: the state becomes `upd s`, and the program goes on as `next s`, where `s`
  is the state the action found. -/
  | act (upd : σ → σ) (next : σ → Prog σ α)

namespace Prog

variable {σ α β γ : Type}

/-- Sequencing: the continuation starts where the first program returned, with no action of its own
in between. -/
def bind : Prog σ α → (α → Prog σ β) → Prog σ β
  | .ret a, f => f a
  | .act u n, f => .act u fun s => (n s).bind f

/-- The program with its result mapped. -/
def map (f : α → β) (p : Prog σ α) : Prog σ β := p.bind fun a => .ret (f a)

/-- An action given by one function: the new state and the continuation. -/
def atom (f : σ → σ × Prog σ α) : Prog σ α := .act (fun s => (f s).1) fun s => (f s).2

/-- An action that only looks. -/
def read (f : σ → Prog σ α) : Prog σ α := .act id f

/-- An action that is a computation over the state, which says how the program goes on. -/
def stretch (x : StateM σ (Prog σ α)) : Prog σ α := .act (fun s => (x s).2) fun s => (x s).1

/-- One action: the state after it, and what is left of the program. -/
def next : Prog σ α → σ → σ × Prog σ α
  | .ret a, s => (s, .ret a)
  | .act u n, s => (u s, n s)

/-- The sequential meaning: every action in turn, with nothing in between. -/
def run : Prog σ α → σ → σ × α
  | .ret a, s => (s, a)
  | .act u n, s => (n s).run (u s)

@[simp] theorem bind_ret (a : α) (f : α → Prog σ β) : (ret a : Prog σ α).bind f = f a := rfl
@[simp] theorem bind_act (u : σ → σ) (n : σ → Prog σ α) (f : α → Prog σ β) :
    (act u n).bind f = act u fun s => (n s).bind f := rfl
@[simp] theorem bind_atom (g : σ → σ × Prog σ α) (f : α → Prog σ β) :
    (atom g).bind f = atom fun s => ((g s).1, (g s).2.bind f) := rfl
@[simp] theorem bind_read (g : σ → Prog σ α) (f : α → Prog σ β) :
    (read g).bind f = read fun s => (g s).bind f := rfl
@[simp] theorem map_ret (f : α → β) (a : α) : (ret a : Prog σ α).map f = ret (f a) := rfl
@[simp] theorem map_act (f : α → β) (u : σ → σ) (n : σ → Prog σ α) :
    (act u n).map f = act u fun s => (n s).map f := rfl
@[simp] theorem map_atom (f : α → β) (g : σ → σ × Prog σ α) :
    (atom g).map f = atom fun s => ((g s).1, (g s).2.map f) := rfl
@[simp] theorem map_read (f : α → β) (g : σ → Prog σ α) :
    (read g).map f = read fun s => (g s).map f := rfl
@[simp] theorem run_ret (a : α) (s : σ) : (ret a : Prog σ α).run s = (s, a) := rfl
@[simp] theorem run_act (u : σ → σ) (n : σ → Prog σ α) (s : σ) :
    (act u n).run s = (n s).run (u s) := rfl
@[simp] theorem run_atom (g : σ → σ × Prog σ α) (s : σ) :
    (atom g).run s = (g s).2.run (g s).1 := rfl
@[simp] theorem run_read (g : σ → Prog σ α) (s : σ) : (read g).run s = (g s).run s := rfl

@[simp] theorem next_ret (a : α) (s : σ) : (ret a : Prog σ α).next s = (s, .ret a) := rfl
@[simp] theorem next_act (u : σ → σ) (n : σ → Prog σ α) (s : σ) :
    (act u n).next s = (u s, n s) := rfl
@[simp] theorem next_atom (g : σ → σ × Prog σ α) (s : σ) : (atom g).next s = g s := rfl
@[simp] theorem next_read (g : σ → Prog σ α) (s : σ) : (read g).next s = (s, g s) := rfl

theorem next_map (f : α → β) (p : Prog σ α) (s : σ) :
    (p.map f).next s = ((p.next s).1, (p.next s).2.map f) := by
  cases p <;> rfl

variable (p : Prog σ α) (f : α → Prog σ β)

theorem run_bind (s : σ) : (p.bind f).run s = (f (p.run s).2).run (p.run s).1 := by
  induction p generalizing s with
  | ret a => rfl
  | act u n ih => exact ih s (u s)

@[simp] theorem run_map (f : α → β) (p : Prog σ α) (s : σ) :
    (p.map f).run s = ((p.run s).1, f (p.run s).2) := by
  rw [map, run_bind, run_ret]

theorem bind_assoc (g : β → Prog σ γ) : (p.bind f).bind g = p.bind fun a => (f a).bind g := by
  induction p with
  | ret a => rfl
  | act u n ih => simp only [bind_act, ih]

theorem map_bind (g : β → γ) : (p.bind f).map g = p.bind fun a => (f a).map g := bind_assoc p f _

/-! ## What a program can do -/

/-- Every action of the program, run in any state, relates that state to the next by `G`. -/
def Guar (G : σ → σ → Prop) : Prog σ α → Prop
  | .ret _ => True
  | .act u n => ∀ s, G s (u s) ∧ (n s).Guar G

variable {G H : σ → σ → Prop}

@[simp] theorem guar_ret (a : α) : (ret a : Prog σ α).Guar G := trivial

theorem guar_atom {f : σ → σ × Prog σ α} (h : ∀ s, G s (f s).1 ∧ (f s).2.Guar G) :
    (atom f).Guar G := h

theorem guar_read (hG : ∀ s, G s s) {f : σ → Prog σ α} (h : ∀ s, (f s).Guar G) :
    (read f).Guar G := fun s => ⟨hG s, h s⟩

theorem Guar.next (hr : ∀ s, G s s) {p : Prog σ α} (h : p.Guar G) (s : σ) :
    G s (p.next s).1 ∧ (p.next s).2.Guar G := by
  cases p with
  | ret a => exact ⟨hr s, trivial⟩
  | act u n => exact h s

theorem Guar.mono (hGH : ∀ s s', G s s' → H s s') {p : Prog σ α} (h : p.Guar G) : p.Guar H := by
  induction p with
  | ret a => trivial
  | act u n ih => exact fun s => ⟨hGH _ _ (h s).1, ih s (h s).2⟩

theorem Guar.bind {p : Prog σ α} {f : α → Prog σ β} (hp : p.Guar G) (hf : ∀ a, (f a).Guar G) :
    (p.bind f).Guar G := by
  induction p with
  | ret a => exact hf a
  | act u n ih => exact fun s => ⟨(hp s).1, ih s (hp s).2⟩

theorem Guar.map {p : Prog σ α} (f : α → β) (hp : p.Guar G) : (p.map f).Guar G :=
  hp.bind fun _ => trivial

/-- A guarantee that is reflexive and transitive relates the ends of a sequential run. -/
theorem Guar.run (hr : ∀ s, G s s) (ht : ∀ {s s' s''}, G s s' → G s' s'' → G s s'')
    {p : Prog σ α} (hp : p.Guar G) (s : σ) : G s (p.run s).1 := by
  induction p generalizing s with
  | ret a => exact hr s
  | act u n ih => exact ht (hp s).1 (ih s (hp s).2 (u s))

/-! ## A program alone, for a while -/

/-- The program `p` in the state `s` is `p'` in the state `s'` after some of its actions, each of
which leaves a state that satisfies `F`. -/
inductive Reaches (F : σ → Prop) : Prog σ α → σ → Prog σ α → σ → Prop where
  | refl (p : Prog σ α) (s : σ) : Reaches F p s p s
  | act {u : σ → σ} {n : σ → Prog σ α} {s s' : σ} {p' : Prog σ α} :
      F (u s) → Reaches F (n s) (u s) p' s' → Reaches F (.act u n) s p' s'

variable {F : σ → Prop}

theorem Reaches.trans {p p' p'' : Prog σ α} {s s' s'' : σ} (h : Reaches F p s p' s')
    (h' : Reaches F p' s' p'' s'') : Reaches F p s p'' s'' := by
  induction h with
  | refl => exact h'
  | act hF _ ih => exact .act hF (ih h')

theorem Reaches.mono {F' : σ → Prop} (hF : ∀ s, F s → F' s) {p p' : Prog σ α} {s s' : σ}
    (h : Reaches F p s p' s') : Reaches F' p s p' s' := by
  induction h with
  | refl => exact .refl _ _
  | act hs _ ih => exact .act (hF _ hs) ih

theorem reaches_of_next {p p' : Prog σ α} {s s' : σ} (h : p.next s = (s', p')) (hF : F s') :
    Reaches F p s p' s' := by
  cases p with
  | ret a =>
    cases h
    exact .refl _ _
  | act u n =>
    cases h
    exact .act hF (.refl _ _)

/-- The first `n` actions. -/
def steps : Nat → Prog σ α → σ → σ × Prog σ α
  | 0, p, s => (s, p)
  | n + 1, p, s => steps n (p.next s).2 (p.next s).1

theorem reaches_steps (n : Nat) (p : Prog σ α) (s : σ) :
    Reaches (fun _ => True) p s (p.steps n s).2 (p.steps n s).1 := by
  induction n generalizing p s with
  | zero => exact .refl p s
  | succ n ih => exact (reaches_of_next (F := fun _ => True) rfl trivial).trans (ih _ _)

/-- Alone, the program is in a state with `Q` before each of its actions, and returns with `R`. -/
def During (Q : σ → Prop) (R : α → σ → Prop) : Prog σ α → σ → Prop
  | .ret a, s => R a s
  | .act u n, s => Q s ∧ (n s).During Q R (u s)

/-- What holds during a program holds during what is left of it. -/
theorem During.steps {Q : σ → Prop} {R : α → σ → Prop} {p : Prog σ α} {s : σ} (h : p.During Q R s)
    (n : Nat) : (p.steps n s).2.During Q R (p.steps n s).1 := by
  induction n generalizing p s with
  | zero => exact h
  | succ n ih =>
    cases p with
    | ret a => exact ih h
    | act u k => exact ih h.2

/-- The result, of a program that has returned. -/
def result? : Prog σ α → Option α
  | .ret a => some a
  | .act _ _ => none

theorem ne_ret_of_result? {p : Prog σ α} (h : p.result? = none) (a : α) : p ≠ .ret a := by
  rintro rfl
  cases h

theorem eq_ret_of_result? {p : Prog σ α} {a : α} (h : p.result? = some a) : p = .ret a := by
  cases p with
  | ret b => exact congrArg ret (Option.some.inj h)
  | act u n => cases h

theorem Reaches.bind {p p' : Prog σ α} {s s' : σ} (h : Reaches F p s p' s') (f : α → Prog σ β) :
    Reaches F (p.bind f) s (p'.bind f) s' := by
  induction h with
  | refl => exact .refl _ _
  | act hF _ ih => exact .act hF ih

theorem Guar.reaches {p : Prog σ α} (h : p.Guar G) (hG : ∀ s s', G s s' → F s → F s') {s : σ}
    (hs : F s) : Reaches F p s (.ret (p.run s).2) (p.run s).1 := by
  induction p generalizing s with
  | ret a => exact .refl _ _
  | act u n ih =>
    have hu := hG _ _ (h s).1 hs
    exact .act hu (ih s (h s).2 hu)

/-! ## Programs over an image of the state -/

/-- Action by action, the first program does to the state what the second one does to its image. -/
def Lifts {τ : Type} (φ : σ → τ) : Prog σ α → Prog τ α → Prop
  | .ret a, .ret b => a = b
  | .act u n, .act u' n' => ∀ s, φ (u s) = u' (φ s) ∧ (n s).Lifts φ (n' (φ s))
  | _, _ => False

section
variable {τ : Type} {φ : σ → τ} {f : σ → σ × Prog σ α}

theorem lifts_ret (a : α) : (ret a : Prog σ α).Lifts φ (ret a) := rfl

theorem lifts_atom {f' : τ → τ × Prog τ α}
    (h : ∀ s, φ (f s).1 = (f' (φ s)).1 ∧ (f s).2.Lifts φ (f' (φ s)).2) :
    (atom f).Lifts φ (atom f') := h

theorem lifts_read {f' : τ → Prog τ α}
    (h : ∀ s, φ (f s).1 = φ s ∧ (f s).2.Lifts φ (f' (φ s))) : (atom f).Lifts φ (read f') := h

theorem Lifts.map {p : Prog σ α} {q : Prog τ α} (h : p.Lifts φ q) (f : α → β) :
    (p.map f).Lifts φ (q.map f) := by
  induction p generalizing q with
  | ret a =>
    cases q with
    | ret b => exact congrArg f h
    | act u' n' => exact h.elim
  | act u n ih =>
    cases q with
    | ret b => exact h.elim
    | act u' n' => exact fun s => ⟨(h s).1, ih s (h s).2⟩

/-- The image of a sequential run is the run on the image. -/
theorem Lifts.run {p : Prog σ α} {q : Prog τ α} (h : p.Lifts φ q) (s : σ) :
    (φ (p.run s).1, (p.run s).2) = q.run (φ s) := by
  induction p generalizing q s with
  | ret a =>
    cases q with
    | ret b => exact congrArg (Prod.mk (φ s)) h
    | act u' n' => exact h.elim
  | act u n ih =>
    cases q with
    | ret b => exact h.elim
    | act u' n' => rw [run_act, run_act, ih s (h s).2, (h s).1]

end

end Prog

end Conc
