import Askr.Conc.Rely

/-!
# Callers with different parts

In a pool where the callers play different parts, what one of them may do is what another one relies
on. A `Contract` says so for every pair of calls, for an invariant `I` of the shared state and for
what holds between the calls of each caller (`B`), which the next call starts from. `Contract.inv`
is the induction over runs: in a run whose events are all as agreed the invariant holds.
-/

namespace Conc.Pool

variable {σ κ ρ ε : Type}

/-- What a change of the state leaves to the callers other than `t`, under a contract. -/
structure Leaves (I : σ → Prop) (B : Nat → σ → Prop) (R : Nat → σ → σ → Prop) (t : Nat)
    (s s' : σ) : Prop where
  inv : I s'
  rely : ∀ t', t' ≠ t → R t' s s'
  between : ∀ t', t' ≠ t → B t' s → B t' s'

/-- An agreement between callers. `K` says who makes which calls, `C` what every event does to the
shared state, `I` is the invariant and `B t` holds between the calls of `t`. Each call is good for
its caller's guarantee as long as the others keep to the caller's rely, and they do. -/
structure Contract (code : κ → Prog σ ρ) (env : ε → σ → σ) (K : Nat → κ → Prop)
    (C : σ → σ → Prop) (I : σ → Prop) (B : Nat → σ → Prop) (R G : Nat → σ → σ → Prop) : Prop where
  refl : ∀ t s, I s → R t s s
  trans : ∀ t s s' s'', R t s s' → R t s' s'' → R t s s''
  calls : ∀ t c s, K t c → I s → B t s → (code c).Valid (R t) (G t) (fun _ => B t) s
  moves : ∀ t s s', I s → C s s' → G t s s' → Leaves I B R t s s'
  env : ∀ x t s, I s → C s (env x s) → Leaves I B R t s (env x s)

variable {code : κ → Prog σ ρ} {env : ε → σ → σ} {K : Nat → κ → Prop} {C : σ → σ → Prop}
  {I : σ → Prop} {B : Nat → σ → Prop} {R G : Nat → σ → σ → Prop} {P : Pool σ κ ρ}

/-- The callers keep to a contract. -/
structure Kept (I : σ → Prop) (B : Nat → σ → Prop) (R G : Nat → σ → σ → Prop) (P : Pool σ κ ρ) :
    Prop where
  inv : I P.shared
  valid : ∀ t c p, P.thread t = some (c, p) →
    (∀ a, p ≠ .ret a) ∧ p.Valid (R t) (G t) (fun _ => B t) P.shared
  between : ∀ t, P.thread t = none → B t P.shared

theorem kept_start {s : σ} (hI : I s) (hB : ∀ t, B t s) : Kept I B R G (start s : Pool σ κ ρ) where
  inv := hI
  valid t c p h := by cases h
  between t _ := hB t

/-- A call that has made an action, or has begun, leaves everybody with what was agreed. -/
theorem Kept.settle (h : P.Kept I B R G)
    (htrans : ∀ t s s' s'', R t s s' → R t s' s'' → R t s s'') {t : Nat} {c : κ} {s : σ}
    {p : Prog σ ρ} (hs : Leaves I B R t P.shared s)
    (hp : p.Valid (R t) (G t) (fun _ => B t) s) : (P.settle t c s p).Kept I B R G := by
  refine ⟨by rw [settle_shared]; exact hs.inv, ?_, fun t' ht' => ?_⟩
  · rw [settle_shared]
    refine forall_settle (fun hret => ⟨hret, hp⟩) fun t' c' p' hne hold => ?_
    obtain ⟨hret, hv⟩ := h.valid t' c' p' hold
    exact ⟨hret, hv.rely (htrans t') hret (hs.rely t' hne)⟩
  · rw [settle_shared]
    by_cases htt : t' = t
    · subst htt
      cases p with
      | ret a => exact hp
      | act u n => simp [Pool.settle] at ht'
    · rw [settle_thread_ne htt] at ht'
      exact hs.between t' htt (h.between t' ht')

/-- **One event** that is as agreed leaves everybody with what was agreed. -/
theorem Contract.exec (hc : Contract code env K C I B R G) (h : P.Kept I B R G) {e : Event κ ε}
    (hK : ∀ t c, e = .call t c → K t c) (hC : C P.shared (P.exec code env e).shared) :
    (P.exec code env e).Kept I B R G := by
  cases e with
  | call t c =>
    cases hidle : P.thread t with
    | some x =>
      rw [Pool.exec, hidle]
      exact h
    | none =>
      rw [Pool.exec, hidle]
      have hcall := hc.calls t c P.shared (hK t c rfl) h.inv (h.between t hidle)
      exact h.settle hc.trans ⟨h.inv, fun t' _ => hc.refl t' _ h.inv, fun _ _ hb => hb⟩ hcall
  | step t =>
    rw [Pool.exec] at hC ⊢
    split at hC
    next c u n ht =>
      rw [settle_shared] at hC
      obtain ⟨hg, hn⟩ := (h.valid t c _ ht).2 P.shared (hc.refl t _ h.inv)
      exact h.settle hc.trans (hc.moves t _ _ h.inv hC hg) hn
    next => exact h
  | env x =>
    have hs := fun t => hc.env x (t + 1) _ h.inv hC
    refine ⟨(hs 0).inv, fun t c p ht => ?_, fun t ht => ?_⟩
    · obtain ⟨hret, hv⟩ := h.valid t c p ht
      exact ⟨hret, hv.rely (hc.trans t) hret ((hs t).rely t t.succ_ne_self.symm)⟩
    · exact (hs t).between t t.succ_ne_self.symm (h.between t ht)

/-- **A run** that is as agreed leaves everybody with what was agreed. -/
theorem Contract.kept (hc : Contract code env K C I B R G) {s : σ} (hI : I s) (hB : ∀ t, B t s)
    {es : List (Event κ ε)} (hK : ∀ t c, .call t c ∈ es → K t c)
    (hrun : Run.Along (Pool.exec code env) (fun P e => C P.shared (P.exec code env e).shared)
      (start s) es) : (Run.runs (Pool.exec code env) (start s) es).Kept I B R G := by
  have hrun' := hrun.and_mem (D := fun e => ∀ t c, e = .call t c → K t c)
    fun e he t c heq => hK t c (heq ▸ he)
  refine hrun'.inv (I := Kept I B R G) (fun P e he hP => ?_) (kept_start hI hB)
  exact hc.exec hP he.2 he.1

/-- **What programs that keep their contracts leave of the invariant.** -/
theorem Contract.inv (hc : Contract code env K C I B R G) {s : σ} (hI : I s) (hB : ∀ t, B t s)
    {es : List (Event κ ε)} (hK : ∀ t c, .call t c ∈ es → K t c)
    (hrun : Run.Along (Pool.exec code env) (fun P e => C P.shared (P.exec code env e).shared)
      (start s) es) : I (Run.runs (Pool.exec code env) (start s) es).shared :=
  (hc.kept hI hB hK hrun).inv

end Conc.Pool
