import Askr.Conc.Pool
import Mathlib.Data.List.Induction

/-!
# What a program does while others run

`Prog.Valid R G Q p s` is the judgement of a program `p` that is at rest in the state `s`: whatever
the others did since, as long as it relates `s` to the state `p` finds by `R` (the *rely*), its next
action keeps to `G` (the *guarantee*), what is left of it is valid after that, and when it returns
its result satisfies `Q` in the state it leaves. Programs compose (`Valid.bind`); a program at rest
stays valid while the others keep to `R` (`Valid.rely`), and so does every caller of a pool in an
event that keeps to what it relies on (`Pool.Valid.exec`). `Pool.Serves` follows one call of a pool,
and `Pool.Returns.post` is what it returns.
-/

namespace Conc

open List Run

namespace Prog

variable {σ α β : Type}

/-- The program is at rest in the state `s`, and keeps to `G` and returns with `Q` as long as the
others keep to `R`. -/
def Valid (R G : σ → σ → Prop) (Q : α → σ → Prop) : Prog σ α → σ → Prop
  | .ret a, s => Q a s
  | .act u n, s => ∀ s', R s s' → G s' (u s') ∧ (n s').Valid R G Q (u s')

variable {R R' G G' : σ → σ → Prop} {Q Q' : α → σ → Prop} {s : σ}

theorem valid_atom {f : σ → σ × Prog σ α}
    (h : ∀ s', R s s' → G s' (f s').1 ∧ (f s').2.Valid R G Q (f s').1) : (atom f).Valid R G Q s := h

theorem valid_read (hG : ∀ s, G s s) {f : σ → Prog σ α}
    (h : ∀ s', R s s' → (f s').Valid R G Q s') : (read f).Valid R G Q s :=
  fun s' hs' => ⟨hG s', h s' hs'⟩

/-- A program that has not returned stays valid whatever the others do. -/
theorem Valid.rely (ht : ∀ s s' s'', R s s' → R s' s'' → R s s'') {p : Prog σ α}
    (hp : ∀ a, p ≠ .ret a) (h : p.Valid R G Q s) {s' : σ} (hs' : R s s') : p.Valid R G Q s' := by
  cases p with
  | ret a => exact absurd rfl (hp a)
  | act u n => exact fun s'' hs'' => h s'' (ht s s' s'' hs' hs'')

theorem Valid.weaken (hR : ∀ s s', R' s s' → R s s') (hG : ∀ s s', G s s' → G' s s')
    (hQ : ∀ a s, Q a s → Q' a s) {p : Prog σ α} (h : p.Valid R G Q s) : p.Valid R' G' Q' s := by
  induction p generalizing s with
  | ret a => exact hQ a s h
  | act u n ih =>
    intro s' hs'
    obtain ⟨hg, hn⟩ := h s' (hR s s' hs')
    exact ⟨hG _ _ hg, ih s' hn⟩

theorem Valid.post (hQ : ∀ a s, Q a s → Q' a s) {p : Prog σ α} (h : p.Valid R G Q s) :
    p.Valid R G Q' s :=
  h.weaken (fun _ _ => id) (fun _ _ => id) hQ

theorem Valid.bind {p : Prog σ α} {f : α → Prog σ β} {Q : β → σ → Prop}
    (h : p.Valid R G (fun a s => (f a).Valid R G Q s) s) : (p.bind f).Valid R G Q s := by
  induction p generalizing s with
  | ret a => exact h
  | act u n ih =>
    intro s' hs'
    obtain ⟨hg, hn⟩ := h s' hs'
    exact ⟨hg, ih s' hn⟩

theorem Valid.map {p : Prog σ α} (f : α → β) {Q : β → σ → Prop}
    (h : p.Valid R G (fun a s => Q (f a) s) s) : (p.map f).Valid R G Q s := Valid.bind h

/-- What the others and the program itself keep holds when it returns. -/
theorem Valid.frame {F : σ → Prop} (hR : ∀ s s', R s s' → F s → F s')
    (hG : ∀ s s', G s s' → F s → F s') {p : Prog σ α} (h : p.Valid R G Q s) (hF : F s) :
    p.Valid R G (fun a s => Q a s ∧ F s) s := by
  induction p generalizing s with
  | ret a => exact ⟨h, hF⟩
  | act u n ih =>
    intro s' hs'
    obtain ⟨hg, hn⟩ := h s' hs'
    exact ⟨hg, ih s' hn (hG _ _ hg (hR _ _ hs' hF))⟩

theorem Valid.and {p : Prog σ α} (h : p.Valid R G Q s) (h' : p.Valid R G' Q' s) :
    p.Valid R (fun s s' => G s s' ∧ G' s s') (fun a s => Q a s ∧ Q' a s) s := by
  induction p generalizing s with
  | ret a => exact ⟨h, h'⟩
  | act u n ih =>
    intro s' hs'
    exact ⟨⟨(h s' hs').1, (h' s' hs').1⟩, ih s' (h s' hs').2 (h' s' hs').2⟩

theorem Guar.valid {p : Prog σ α} (h : p.Guar G) (hQ : ∀ a s, Q a s) : p.Valid R G Q s := by
  induction p generalizing s with
  | ret a => exact hQ a s
  | act u n ih => exact fun s' _ => ⟨(h s').1, ih s' (h s').2⟩

theorem Guar.keeps {F : σ → Prop} (hR : ∀ s s', R s s' → F s → F s')
    (hG' : ∀ s s', G' s s' → F s → F s') (hG : ∀ s s', G' s s' → G s s') {p : Prog σ α}
    (h : p.Guar G') (hF : F s) : p.Valid R G (fun _ s => F s) s :=
  ((h.valid (Q := fun _ _ => True) fun _ _ => trivial).frame hR hG' hF).weaken (fun _ _ => id) hG
    fun _ _ hQ => hQ.2

theorem Valid.next (hR : R s s) (hG : G s s) {p : Prog σ α} (h : p.Valid R G Q s) :
    G s (p.next s).1 ∧ (p.next s).2.Valid R G Q (p.next s).1 := by
  cases p with
  | ret a => exact ⟨hG, h⟩
  | act u n => exact h s hR

/-- A program that runs alone returns with its postcondition, through states that its guarantee
keeps in `F`. -/
theorem Valid.reaches {F : σ → Prop} (hR : ∀ s, F s → R s s) (hG : ∀ s s', G s s' → F s → F s')
    {p : Prog σ α} (h : p.Valid R G Q s) (hs : F s) :
    p.Reaches F s (.ret (p.run s).2) (p.run s).1 ∧ Q (p.run s).2 (p.run s).1 ∧ F (p.run s).1 := by
  induction p generalizing s with
  | ret a => exact ⟨.refl _ _, h, hs⟩
  | act u n ih =>
    obtain ⟨hg, hn⟩ := h s (hR s hs)
    have hu := hG _ _ hg hs
    obtain ⟨hreach, hend⟩ := ih s hn hu
    exact ⟨.act hu hreach, hend⟩

/-- A valid program run alone ends in its postcondition. -/
theorem Valid.run (hR : ∀ s, R s s) {p : Prog σ α} (h : p.Valid R G Q s) :
    Q (p.run s).2 (p.run s).1 :=
  (h.reaches (F := fun _ => True) (fun s _ => hR s) (fun _ _ _ _ => trivial) trivial).2.1

end Prog

namespace Pool

variable {σ κ ρ ε : Type} {code : κ → Prog σ ρ} {env : ε → σ → σ} {P : Pool σ κ ρ}
  {R G : κ → σ → σ → Prop} {Q : κ → ρ → σ → Prop}

/-- Every call in flight is at rest, and valid. -/
def Valid (R G : κ → σ → σ → Prop) (Q : κ → ρ → σ → Prop) (P : Pool σ κ ρ) : Prop :=
  ∀ t c p, P.thread t = some (c, p) → (∀ a, p ≠ .ret a) ∧ p.Valid (R c) (G c) (Q c) P.shared

theorem valid_start (s : σ) : Valid R G Q (start s : Pool σ κ ρ) := by
  intro t c p h
  cases h

section
variable (hR : ∀ t c p, P.thread t = some (c, p) → R c P.shared P.shared)
  (hG : ∀ c, G c P.shared P.shared) (h : P.Valid R G Q) (e : Event κ ε)
  (hcall : ∀ t c, e = .call t c → (code c).Valid (R c) (G c) (Q c) P.shared)

include hR hG h

/-- What an event does to the shared state: nothing, what a call guarantees, or a move of the
environment. -/
theorem Valid.moves (code : κ → Prog σ ρ) (env : ε → σ → σ) :
    (P.exec code env e).shared = P.shared ∨ (∃ t c p, e = .step t ∧ P.thread t = some (c, p) ∧
        G c P.shared (P.exec code env e).shared) ∨
      ∃ x, e = .env x ∧ (P.exec code env e).shared = env x P.shared := by
  rcases exec_cases code env P e with he | ⟨t, c, -, he⟩ | ⟨t, c, p, hev, ht, he⟩ | ⟨x, hev, he⟩
  all_goals rw [he]
  · exact .inl rfl
  · exact .inl settle_shared
  · refine .inr (.inl ⟨t, c, p, hev, ht, ?_⟩)
    rw [settle_shared]
    exact ((h t c p ht).2.next (hR t c p ht) (hG c)).1
  · exact .inr (.inr ⟨x, hev, rfl⟩)

include hcall

/-- **One event**: the calls of the others stay valid if it keeps to what they rely on. -/
theorem Valid.exec (ht : ∀ c s s' s'', R c s s' → R c s' s'' → R c s s'')
    (hmove : ∀ t c p, P.thread t = some (c, p) → e ≠ .step t →
      R c P.shared (P.exec code env e).shared) : (P.exec code env e).Valid R G Q := by
  intro t' c' p' ht'
  have hother : P.thread t' = some (c', p') → e ≠ .step t' →
      (∀ a, p' ≠ .ret a) ∧ p'.Valid (R c') (G c') (Q c') (P.exec code env e).shared := by
    intro hold hne
    obtain ⟨hret, hv⟩ := h t' c' p' hold
    exact ⟨hret, hv.rely (ht c') hret (hmove t' c' p' hold hne)⟩
  rcases exec_cases code env P e with he | ⟨t, c, hev, he⟩ | ⟨t, c, p, hev, hthread, he⟩ |
    ⟨x, hev, he⟩
  · rw [he] at ht' ⊢
    exact h t' c' p' ht'
  · rw [he] at ht'
    rcases settle_thread_cases ht' with ⟨-, rfl, rfl, hret⟩ | ⟨-, hold⟩
    · rw [he, settle_shared]
      exact ⟨hret, hcall t c' hev⟩
    · exact hother hold (by simp [hev])
  · rw [he] at ht'
    rcases settle_thread_cases ht' with ⟨-, rfl, rfl, hret⟩ | ⟨hne, hold⟩
    · rw [he, settle_shared]
      exact ⟨hret, ((h t c' p hthread).2.next (hR t c' p hthread) (hG c')).2⟩
    · exact hother hold (by simp [hev, Ne.symm hne])
  · rw [he] at ht'
    exact hother ht' (by simp [hev])

theorem Valid.done : (P.exec code env e).done = P.done ∨
      ∃ t c r, (P.exec code env e).done = ⟨t, c, r⟩ :: P.done ∧
        Q c r (P.exec code env e).shared := by
  rcases exec_cases code env P e with he | ⟨t, c, hev, he⟩ | ⟨t, c, p, -, ht, he⟩ | ⟨x, -, he⟩
  all_goals rw [he]
  · exact .inl rfl
  · rw [settle_shared]
    refine settle_done.imp_right ?_
    rintro ⟨r, hr, hd⟩
    have hv := hcall t c hev
    rw [hr] at hv
    exact ⟨t, c, r, hd, hv⟩
  · rw [settle_shared]
    refine settle_done.imp_right ?_
    rintro ⟨r, hr, hd⟩
    have hv := ((h t c p ht).2.next (hR t c p ht) (hG c)).2
    rw [hr] at hv
    exact ⟨t, c, r, hd, hv⟩
  · exact .inl rfl

/-- What every call returns with holds of all that have returned. -/
theorem Valid.forall_done {D : κ → ρ → Prop}
    (hQ : ∀ c a, Q c a (P.exec code env e).shared → D c a) (hold : ∀ x ∈ P.done, D x.call x.res) :
    ∀ x ∈ (P.exec code env e).done, D x.call x.res := by
  rcases h.done hR hG e hcall with hd | ⟨t, c, a, hd, ha⟩
  all_goals rw [hd]
  exacts [hold, forall_mem_cons.2 ⟨hQ c a ha, hold⟩]

end

/-! ## One call -/

section
variable {R G : σ → σ → Prop} {Q : ρ → σ → Prop} {t : Nat} {c : κ}

/-- The caller `t` is in its call `c`, which is valid. -/
def Serves (R G : σ → σ → Prop) (Q : ρ → σ → Prop) (t : Nat) (c : κ) (P : Pool σ κ ρ) : Prop :=
  ∃ p, P.thread t = some (c, p) ∧ (∀ a, p ≠ .ret a) ∧ p.Valid R G Q P.shared

theorem serves_settle {s : σ} {p : Prog σ ρ} (hp : p.Valid R G Q s) :
    (P.settle t c s p).Serves R G Q t c ∨
      ∃ a, P.settle t c s p = P.settle t c s (.ret a) ∧ Q a s := by
  cases p with
  | ret a => exact .inr ⟨a, rfl, hp⟩
  | act u n => exact .inl ⟨.act u n, by simp [settle], by simp, hp⟩

theorem serves_call (hidle : P.thread t = none) (hp : (code c).Valid R G Q P.shared) :
    (P.exec code env (.call t c)).Serves R G Q t c ∨
      ∃ a, P.exec code env (.call t c) = P.settle t c P.shared (.ret a) ∧ Q a P.shared := by
  rw [exec, hidle]
  exact serves_settle hp

/-- A call goes on, or returns with what was promised, in any event that keeps to its rely. -/
theorem Serves.exec (hR : R P.shared P.shared) (ht : ∀ s s' s'', R s s' → R s' s'' → R s s'')
    (hG : G P.shared P.shared) (h : P.Serves R G Q t c) (e : Event κ ε)
    (hmove : e ≠ .step t → R P.shared (P.exec code env e).shared) :
    (P.exec code env e).Serves R G Q t c ∨
      ∃ a s, P.exec code env e = P.settle t c s (.ret a) ∧ Q a s := by
  obtain ⟨p, hthread, hret, hp⟩ := h
  have hother : (P.exec code env e).thread t = some (c, p) → e ≠ .step t →
      (P.exec code env e).Serves R G Q t c :=
    fun h hne => ⟨p, h, hret, hp.rely ht hret (hmove hne)⟩
  rcases exec_cases code env P e with he | ⟨t', c', hev, he⟩ | ⟨t', c', p', hev, ht', he⟩ |
    ⟨x, hev, he⟩
  · rw [he]
    exact .inl ⟨p, hthread, hret, hp⟩
  · by_cases htt : t' = t
    · subst htt
      rw [hev, Pool.exec, hthread]
      exact .inl ⟨p, hthread, hret, hp⟩
    · refine .inl (hother ?_ (by simp [hev]))
      rw [he, settle_thread_ne (Ne.symm htt)]
      exact hthread
  · by_cases htt : t' = t
    · subst htt
      cases hthread.symm.trans ht'
      rw [he]
      refine (serves_settle (hp.next hR hG).2).imp_right ?_
      rintro ⟨a, heq, hq⟩
      exact ⟨a, _, heq, hq⟩
    · refine .inl (hother ?_ (by simp [hev, htt]))
      rw [he, settle_thread_ne (Ne.symm htt)]
      exact hthread
  · refine .inl (hother ?_ (by simp [hev]))
    rw [he]
    exact hthread

/-- The call `c` of the idle caller `t` is under way during the events `es`, and returns `a` in the
next action of the caller. -/
def Returns (code : κ → Prog σ ρ) (env : ε → σ → σ) (P : Pool σ κ ρ) (t : Nat) (c : κ)
    (es : List (Event κ ε)) (a : ρ) : Prop :=
  P.thread t = none ∧
    (∀ es', es' <+: es → (runs (exec code env) P (.call t c :: es')).thread t ≠ none) ∧
    (runs (exec code env) P (.call t c :: (es ++ [.step t]))).done =
      ⟨t, c, a⟩ :: (runs (exec code env) P (.call t c :: es)).done

theorem returns_of_busy {es : List (Event κ ε)} {a : ρ} (hidle : P.thread t = none)
    (hcalls : ∀ c', .call t c' ∉ es)
    (hbusy : ((runs (exec code env) P (.call t c :: es)).thread t).isSome)
    (hdone : (runs (exec code env) P (.call t c :: (es ++ [.step t]))).done =
      ⟨t, c, a⟩ :: (runs (exec code env) P (.call t c :: es)).done) :
    Returns code env P t c es a := by
  refine ⟨hidle, ?_, hdone⟩
  rintro es₁ ⟨es₂, rfl⟩ hnone
  have hend : (runs (exec code env) P (.call t c :: (es₁ ++ es₂))).thread t = none := by
    rw [← cons_append, runs_append]
    exact idle_of_not_called hnone fun c' hc' => hcalls c' (mem_append_right _ hc')
  rw [hend] at hbusy
  cases hbusy

/-- **A call that returns** does so with what was promised, if the others kept to its rely while it
was under way. -/
theorem Returns.post {es : List (Event κ ε)} {a : ρ} (h : Returns code env P t c es a)
    (hcode : (code c).Valid R G Q P.shared) (ht : ∀ s s' s'', R s s' → R s' s'' → R s s'')
    (hG : ∀ s, G s s)
    (hR : ∀ es', es' <+: es → R (runs (exec code env) P (.call t c :: es')).shared
      (runs (exec code env) P (.call t c :: es')).shared)
    (hmove : ∀ es' e, es' ++ [e] <+: es → e ≠ .step t →
      R (runs (exec code env) P (.call t c :: es')).shared
        (runs (exec code env) P (.call t c :: (es' ++ [e]))).shared) :
    Q a (runs (exec code env) P (.call t c :: (es ++ [.step t]))).shared := by
  obtain ⟨hidle, hbusy, hdone⟩ := h
  have hover : ∀ (P : Pool σ κ ρ) s b, (P.settle t c s (.ret b)).thread t = none := by
    intro P s b
    simp [settle]
  have hserves : ∀ es', es' <+: es →
      (runs (exec code env) P (.call t c :: es')).Serves R G Q t c := by
    intro es'
    induction es' using reverseRecOn with
    | nil =>
      intro hpre
      have hstart : (P.exec code env (.call t c)).Serves R G Q t c ∨ _ := serves_call hidle hcode
      refine hstart.resolve_right ?_
      rintro ⟨b, heq, -⟩
      exact hbusy [] hpre (by rw [runs_cons, heq]; exact hover P _ b)
    | append_singleton es' e ih =>
      intro hpre
      have hpre' : es' <+: es := (prefix_append es' [e]).trans hpre
      have hrun : runs (exec code env) P (.call t c :: (es' ++ [e])) =
          (runs (exec code env) P (.call t c :: es')).exec code env e := by
        rw [← cons_append, runs_append]
        rfl
      rw [hrun]
      refine ((ih hpre').exec (hR es' hpre') ht (hG _) e fun hne => ?_).resolve_right ?_
      · rw [← hrun]
        exact hmove es' e hpre hne
      · rintro ⟨b, s, heq, -⟩
        exact hbusy _ hpre (by rw [hrun, heq]; exact hover _ s b)
  obtain ⟨p, hp, hret, hv⟩ := hserves es prefix_rfl
  rw [← cons_append, runs_append, runs_cons, runs_nil, exec, hp] at hdone ⊢
  cases p with
  | ret b => exact absurd rfl (hret b)
  | act u n =>
    obtain ⟨-, hv⟩ := hv _ (hR es prefix_rfl)
    dsimp only at hdone ⊢
    rw [settle_shared]
    rcases settle_done (P := runs (exec code env) P (.call t c :: es)) (t := t) (c := c)
      (s := u (runs (exec code env) P (.call t c :: es)).shared)
      (p := n (runs (exec code env) P (.call t c :: es)).shared) with hsame | ⟨b, hb, hnew⟩
    · rw [hsame] at hdone
      exact absurd hdone.symm (cons_ne_self _ _)
    · rw [hnew] at hdone
      cases (List.cons.inj hdone).1
      rw [hb] at hv
      exact hv

end

/-! ## One rely for all -/

section
variable {I : σ → Prop} {R : σ → σ → Prop} {Q : κ → ρ → σ → Prop}

/-- The callers rely on each other alike: every action keeps `I` and moves the state by `R`, and
what a call returns with stays true. -/
structure Joint (code : κ → Prog σ ρ) (env : ε → σ → σ) (I : σ → Prop) (R : σ → σ → Prop)
    (Q : κ → ρ → σ → Prop) : Prop where
  refl : ∀ s, R s s
  trans : ∀ s s' s'', R s s' → R s' s'' → R s s''
  calls : ∀ c s, I s → (code c).Valid (fun s s' => I s' ∧ R s s')
    (fun s s' => I s → I s' ∧ R s s') (Q c) s
  env : ∀ x s, I s → I (env x s) ∧ R s (env x s)
  stays : ∀ c a s s', R s s' → Q c a s → Q c a s'

/-- The pool between two events. -/
structure Joined (I : σ → Prop) (R : σ → σ → Prop) (Q : κ → ρ → σ → Prop) (P : Pool σ κ ρ) :
    Prop where
  inv : I P.shared
  valid : P.Valid (fun _ s s' => I s' ∧ R s s') (fun _ s s' => I s → I s' ∧ R s s') Q
  done : ∀ x ∈ P.done, Q x.call x.res P.shared

theorem joined_start {s : σ} (hs : I s) : Joined I R Q (start s : Pool σ κ ρ) :=
  ⟨hs, valid_start s, by simp [start]⟩

/-- One event keeps all callers joined, and is one that each relies on. -/
theorem Joint.exec (h : Joint code env I R Q) (hP : P.Joined I R Q) (e : Event κ ε) :
    (P.exec code env e).Joined I R Q ∧ R P.shared (P.exec code env e).shared := by
  have hself : ∀ t c p, P.thread t = some (c, p) → I P.shared ∧ R P.shared P.shared :=
    fun _ _ _ _ => ⟨hP.inv, h.refl _⟩
  have hG : ∀ _ : κ, I P.shared → I P.shared ∧ R P.shared P.shared := fun _ hs => ⟨hs, h.refl _⟩
  have hcall : ∀ t c, e = .call t c → (code c).Valid _ _ (Q c) P.shared :=
    fun t c _ => h.calls c _ hP.inv
  have hmove : I (P.exec code env e).shared ∧ R P.shared (P.exec code env e).shared := by
    rcases hP.valid.moves hself hG e code env with hm | ⟨-, c, -, -, -, hm⟩ | ⟨x, -, hm⟩
    · rw [hm]
      exact ⟨hP.inv, h.refl _⟩
    · exact hm hP.inv
    · rw [hm]
      exact h.env x _ hP.inv
  refine ⟨⟨hmove.1, ?_, ?_⟩, hmove.2⟩
  · exact hP.valid.exec hself hG e hcall (fun _ _ _ _ h₁ h₂ => ⟨h₂.1, h.trans _ _ _ h₁.2 h₂.2⟩)
      fun _ _ _ _ _ => hmove
  · exact hP.valid.forall_done hself hG e hcall (fun _ _ h => h)
      fun x hx => h.stays _ _ _ _ hmove.2 (hP.done x hx)

/-- So does a run. -/
theorem Joint.runs (h : Joint code env I R Q) (es : List (Event κ ε)) (hP : P.Joined I R Q) :
    (runs (Pool.exec code env) P es).Joined I R Q ∧
      R P.shared (runs (Pool.exec code env) P es).shared := by
  induction es generalizing P with
  | nil => exact ⟨hP, h.refl _⟩
  | cons e es ih =>
    obtain ⟨hP', hstep⟩ := h.exec hP e
    exact (ih hP').imp_right (h.trans _ _ _ hstep)

end

end Pool

end Conc
