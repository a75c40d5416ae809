import Askr.Conc.Prog
import Askr.Conc.Run

/-!
# Interleaved calls

A `Pool` is a shared state with any number of callers. A caller is idle or in the middle of one
call, which is a resumption (`Conc.Prog`); what returned so far is kept in `done`, newest first. An
`Event` starts a call, runs one atomic action of one caller, or moves the environment (a clock).
`Pool.exec` is total, so a schedule is any list of events, a run of `exec` (`Askr.Conc.Run`).

A call returns in the same event as its last action. That is what a caller holding a lock sees: the
value it returns is fixed inside the section that fixes the state.
-/

namespace Conc

open Function List Run

/-- A returned call: who called, what, and with which result. -/
structure Ret (κ ρ : Type) where
  tid : Nat
  call : κ
  res : ρ
deriving DecidableEq

/-- A shared state and the callers working on it. -/
structure Pool (σ κ ρ : Type) where
  shared : σ
  /-- The call in flight of each caller, and what is left of it. -/
  thread : Nat → Option (κ × Prog σ ρ)
  /-- The calls that returned, newest first. -/
  done : List (Ret κ ρ)

inductive Event (κ ε : Type) where
  /-- An idle caller starts a call. -/
  | call (t : Nat) (c : κ)
  /-- A caller runs the next action of its call. -/
  | step (t : Nat)
  /-- The environment moves. -/
  | env (e : ε)

namespace Pool

variable {σ κ ρ ε : Type}

/-- Nobody is calling yet. -/
def start (s : σ) : Pool σ κ ρ := { shared := s, thread := fun _ => none, done := [] }

/-- The caller `t` goes on with `p`, in the shared state `s`: a program that has returned leaves the
caller idle and its result in `done`. -/
def settle (P : Pool σ κ ρ) (t : Nat) (c : κ) (s : σ) : Prog σ ρ → Pool σ κ ρ
  | .ret r => { shared := s, thread := update P.thread t none,
                done := ⟨t, c, r⟩ :: P.done }
  | .act u n => { shared := s, thread := update P.thread t (some (c, .act u n)),
                  done := P.done }

/-- What one event does. A `call` of a busy caller and a `step` of an idle one do nothing. -/
def exec (code : κ → Prog σ ρ) (env : ε → σ → σ) (P : Pool σ κ ρ) : Event κ ε → Pool σ κ ρ
  | .call t c =>
    match P.thread t with
    | some _ => P
    | none => P.settle t c P.shared (code c)
  | .step t =>
    match P.thread t with
    | some (c, .act u n) => P.settle t c (u P.shared) (n P.shared)
    | _ => P
  | .env e => { P with shared := env e P.shared }

/-! ## Settling -/

section settle
variable {P : Pool σ κ ρ} {t : Nat} {c : κ} {s : σ} {p : Prog σ ρ}

@[simp] theorem settle_shared : (P.settle t c s p).shared = s := by
  cases p <;> rfl

theorem settle_thread_ne {t' : Nat} (h : t' ≠ t) : (P.settle t c s p).thread t' = P.thread t' := by
  cases p <;> simp [settle, h]

theorem settle_thread_self {x : κ × Prog σ ρ} (h : (P.settle t c s p).thread t = some x) :
    x = (c, p) ∧ ∀ r, p ≠ .ret r := by
  cases p with
  | ret r => simp [settle] at h
  | act u n => exact ⟨by simpa [settle, eq_comm] using h, by simp⟩

theorem settle_thread_of_ne_ret (hp : ∀ r, p ≠ .ret r) :
    (P.settle t c s p).thread t = some (c, p) := by
  cases p with
  | ret r => exact absurd rfl (hp r)
  | act u n => simp [settle]

theorem settle_done : (P.settle t c s p).done = P.done ∨
    ∃ r, p = .ret r ∧ (P.settle t c s p).done = ⟨t, c, r⟩ :: P.done := by
  cases p with
  | ret r => exact .inr ⟨r, rfl, rfl⟩
  | act u n => exact .inl rfl

end settle

/-! ## Events -/

section exec
variable {code : κ → Prog σ ρ} {env : ε → σ → σ} {P : Pool σ κ ρ}

/-- What an event can do: nothing, the start of a call, one action of a call in flight, or a move of
the environment. -/
theorem exec_cases (code : κ → Prog σ ρ) (env : ε → σ → σ) (P : Pool σ κ ρ) (e : Event κ ε) :
    P.exec code env e = P ∨
      (∃ t c, e = .call t c ∧ P.exec code env e = P.settle t c P.shared (code c)) ∨
      (∃ t c p, e = .step t ∧ P.thread t = some (c, p) ∧
        P.exec code env e = P.settle t c (p.next P.shared).1 (p.next P.shared).2) ∨
      ∃ x, e = .env x ∧ P.exec code env e = { P with shared := env x P.shared } := by
  cases e with
  | call t c =>
    rw [exec]
    split
    · exact .inl rfl
    · exact .inr (.inl ⟨t, c, rfl, rfl⟩)
  | step t =>
    rw [exec]
    split
    · rename_i c u n ht
      exact .inr (.inr (.inl ⟨t, c, .act u n, rfl, ht, rfl⟩))
    · exact .inl rfl
  | env x => exact .inr (.inr (.inr ⟨x, rfl, rfl⟩))

theorem exec_step_done {t : Nat} {c : κ} {p : Prog σ ρ} {a : ρ} (ht : P.thread t = some (c, p))
    (hp : ∀ b, p ≠ .ret b) (h : (p.next P.shared).2 = .ret a) :
    (P.exec code env (.step t)).done = ⟨t, c, a⟩ :: P.done := by
  cases p with
  | ret b => exact absurd rfl (hp b)
  | act u n =>
    rw [Prog.next_act] at h
    rw [exec, ht]
    dsimp only at h ⊢
    rw [h]
    rfl

theorem settle_thread_cases {t t' : Nat} {c c' : κ} {s : σ} {p p' : Prog σ ρ}
    (h : (P.settle t c s p).thread t' = some (c', p')) :
    (t' = t ∧ c' = c ∧ p' = p ∧ ∀ r, p ≠ .ret r) ∨ (t' ≠ t ∧ P.thread t' = some (c', p')) := by
  by_cases ht : t' = t
  · subst ht
    obtain ⟨heq, hret⟩ := settle_thread_self h
    cases heq
    exact .inl ⟨rfl, rfl, rfl, hret⟩
  · rw [settle_thread_ne ht] at h
    exact .inr ⟨ht, h⟩

/-- What holds of the other callers, and of the call at hand unless it has returned, holds of all
calls in flight. -/
theorem forall_settle {K : Nat → κ → Prog σ ρ → Prop} {t : Nat} {c : κ} {s : σ} {p : Prog σ ρ}
    (hp : (∀ r, p ≠ .ret r) → K t c p)
    (h : ∀ t' c' p', t' ≠ t → P.thread t' = some (c', p') → K t' c' p') (t' : Nat) (c' : κ)
    (p' : Prog σ ρ) (ht : (P.settle t c s p).thread t' = some (c', p')) : K t' c' p' := by
  rcases settle_thread_cases ht with ⟨rfl, rfl, rfl, hret⟩ | ⟨hne, hold⟩
  exacts [hp hret, h t' c' p' hne hold]

theorem idle_of_not_called {t : Nat} {es : List (Event κ ε)} (ht : P.thread t = none)
    (hes : ∀ c, .call t c ∉ es) : (runs (exec code env) P es).thread t = none := by
  induction es generalizing P with
  | nil => exact ht
  | cons e es ih =>
    refine ih ?_ fun c hc => hes c (.tail _ hc)
    rcases exec_cases code env P e with he | ⟨t', c, hce, he⟩ | ⟨t', c, p, -, ht', he⟩ | ⟨x, -, he⟩
    · rwa [he]
    · have hne : t ≠ t' := by
        rintro rfl
        exact hes c (hce ▸ .head _)
      rwa [he, settle_thread_ne hne]
    · have hne : t ≠ t' := by
        rintro rfl
        rw [ht] at ht'
        cases ht'
      rwa [he, settle_thread_ne hne]
    · rwa [he]

theorem idle_all (ts : List Nat) {es : List (Event κ ε)} (hP : ∀ t, P.thread t = none)
    (hts : ∀ t c, .call t c ∈ es → t ∈ ts)
    (h : ∀ t ∈ ts, (runs (exec code env) P es).thread t = none) (t : Nat) :
    (runs (exec code env) P es).thread t = none := by
  by_cases ht : t ∈ ts
  · exact h t ht
  · exact idle_of_not_called (hP t) fun c hc => ht (hts t c hc)

/-! ## One caller alone -/

theorem settle_settle (P : Pool σ κ ρ) (t : Nat) (c : κ) (s s' : σ) (u : σ → σ) (n : σ → Prog σ ρ)
    (p : Prog σ ρ) : (P.settle t c s (.act u n)).settle t c s' p = P.settle t c s' p := by
  cases p <;> simp [settle]

theorem runs_settle (env : ε → σ → σ) {F : σ → Prop} {t : Nat} {c : κ} {p p' : Prog σ ρ} {s s' : σ}
    (h : p.Reaches F s p' s') :
    ∃ m, runs (exec code env) (P.settle t c s p) (replicate m (.step t)) =
        P.settle t c s' p' ∧
      Run.Along (exec code env) (fun P e => F (P.exec code env e).shared) (P.settle t c s p)
        (replicate m (.step t)) := by
  induction h with
  | refl p s => exact ⟨0, rfl, trivial⟩
  | @act u n s s' p' hF _ ih =>
    obtain ⟨m, hm, hrun⟩ := ih
    have hstep : exec code env (P.settle t c s (.act u n)) (.step t) =
        P.settle t c (u s) (n s) := by
      have hthread : (P.settle t c s (.act u n)).thread t = some (c, .act u n) := by simp [settle]
      rw [exec, hthread]
      exact settle_settle P t c s (u s) u n (n s)
    refine ⟨m + 1, ?_, ?_⟩
    · rw [replicate_succ, runs_cons, hstep, hm]
    · rw [replicate_succ]
      refine ⟨?_, hstep ▸ hrun⟩
      simp only [hstep, settle_shared]
      exact hF

theorem runs_step (code : κ → Prog σ ρ) (env : ε → σ → σ) {F : σ → Prop} {t : Nat} {c : κ}
    {p p' : Prog σ ρ} {s' : σ} (ht : P.thread t = some (c, p)) (hp : ∀ a, p ≠ .ret a)
    (h : p.Reaches F P.shared p' s') :
    ∃ m, runs (exec code env) P (replicate m (.step t)) = P.settle t c s' p' ∧
      Run.Along (exec code env) (fun P e => F (P.exec code env e).shared) P
        (replicate m (.step t)) := by
  have hself : P.settle t c P.shared p = P := by
    cases p with
    | ret a => exact absurd rfl (hp a)
    | act u n =>
      rw [settle, ← ht, update_eq_self]
  have hruns : ∃ m, runs (exec code env) (P.settle t c P.shared p)
        (replicate m (.step t)) = P.settle t c s' p' ∧
      Along (exec code env) (fun P e => F (P.exec code env e).shared)
        (P.settle t c P.shared p) (replicate m (.step t)) := runs_settle env h
  rwa [hself] at hruns

theorem runs_around (code : κ → Prog σ ρ) (env : ε → σ → σ) {F : σ → Prop} {t t' : Nat} {c c' : κ}
    {p p' q : Prog σ ρ} {s₁ s₂ s₃ : σ} {r r' : ρ} (hne : t' ≠ t) (ht : P.thread t = some (c, p))
    (ht' : P.thread t' = some (c', p')) (hp : ∀ a, p ≠ .ret a) (hp' : ∀ a, p' ≠ .ret a)
    (hq : ∀ a, q ≠ .ret a) (h₁ : p.Reaches F P.shared q s₁) (h₂ : p'.Reaches F s₁ (.ret r') s₂)
    (h₃ : q.Reaches F s₂ (.ret r) s₃) : ∃ es : List (Event κ ε), (∀ e ∈ es, ∃ u, e = .step u) ∧
      (runs (exec code env) P es).shared = s₃ ∧
      (runs (exec code env) P es).done = ⟨t, c, r⟩ :: ⟨t', c', r'⟩ :: P.done ∧
      Run.Along (exec code env) (fun P e => F (P.exec code env e).shared) P es := by
  obtain ⟨m₁, hm₁, hrun₁⟩ := runs_step code env ht hp h₁
  have hthread' : (P.settle t c s₁ q).thread t' = some (c', p') := by
    rwa [settle_thread_ne hne]
  obtain ⟨m₂, hm₂, hrun₂⟩ := runs_step code env hthread' hp' (by rwa [settle_shared])
  have hthread : ((P.settle t c s₁ q).settle t' c' s₂ (.ret r')).thread t = some (c, q) := by
    rw [settle_thread_ne (Ne.symm hne), settle_thread_of_ne_ret hq]
  obtain ⟨m₃, hm₃, hrun₃⟩ := runs_step code env hthread hq (by rwa [settle_shared])
  refine ⟨replicate m₁ (.step t) ++ (replicate m₂ (.step t') ++
    replicate m₃ (.step t)), fun e he => ?_, ?_, ?_, ?_⟩
  · simp only [mem_append, mem_replicate] at he
    rcases he with he | he | he
    exacts [⟨_, he.2⟩, ⟨_, he.2⟩, ⟨_, he.2⟩]
  · rw [runs_append, hm₁, runs_append, hm₂, hm₃, settle_shared]
  · rw [runs_append, hm₁, runs_append, hm₂, hm₃]
    cases q with
    | ret a => exact absurd rfl (hq a)
    | act u n => rfl
  · refine along_append.2 ⟨hrun₁, ?_⟩
    rw [hm₁]
    refine along_append.2 ⟨hrun₂, ?_⟩
    rw [hm₂]
    exact hrun₃

theorem runs_call (env : ε → σ → σ) {F : σ → Prop} {t : Nat} {c : κ} (hidle : P.thread t = none)
    (hF : F P.shared) {p : Prog σ ρ} {s : σ} (h : (code c).Reaches F P.shared p s) :
    ∃ m, runs (exec code env) P (.call t c :: replicate m (.step t)) = P.settle t c s p ∧
      Run.Along (exec code env) (fun P e => F (P.exec code env e).shared) P
        (.call t c :: replicate m (.step t)) := by
  have hcall : exec code env P (.call t c) = P.settle t c P.shared (code c) := by rw [exec, hidle]
  obtain ⟨m, hm, hrun⟩ : ∃ m, runs (exec code env) (P.settle t c P.shared (code c))
      (replicate m (.step t)) = P.settle t c s p ∧
      Along (exec code env) (fun P e => F (P.exec code env e).shared)
        (P.settle t c P.shared (code c)) (replicate m (.step t)) := runs_settle env h
  refine ⟨m, ?_, ?_, ?_⟩
  · rw [runs_cons, hcall, hm]
  · simp only [hcall, settle_shared]
    exact hF
  · rw [hcall]
    exact hrun

theorem runs_whole (code : κ → Prog σ ρ) (env : ε → σ → σ) {t : Nat} (c : κ)
    (hidle : P.thread t = none) :
    ∃ m, runs (exec code env) P (.call t c :: replicate m (.step t)) =
      { shared := ((code c).run P.shared).1, thread := P.thread,
        done := ⟨t, c, ((code c).run P.shared).2⟩ :: P.done } := by
  have hend : (code c).Reaches (fun _ => True) P.shared (.ret ((code c).run P.shared).2)
      ((code c).run P.shared).1 := by
    refine Prog.Guar.reaches (G := fun _ _ => True) ?_ (fun _ _ _ _ => trivial) trivial
    generalize code c = p
    induction p with
    | ret a => trivial
    | act u n ih => exact fun s => ⟨trivial, ih s⟩
  obtain ⟨m, hm, -⟩ := runs_call env hidle trivial hend
  refine ⟨m, hm.trans ?_⟩
  rw [settle, ← hidle, update_eq_self]

theorem runs_call_call (env : ε → σ → σ) {F : σ → Prop} {t t' : Nat} {c c' : κ} (hne : t' ≠ t)
    (hidle : P.thread t = none) (hidle' : P.thread t' = none) (hF : F P.shared)
    {p p' : Prog σ ρ} {s s' : σ} (h : (code c).Reaches F P.shared p s) (hFs : F s)
    (h' : (code c').Reaches F s p' s') :
    ∃ m m', runs (exec code env) P (.call t c :: (replicate m (.step t) ++
          .call t' c' :: replicate m' (.step t'))) = (P.settle t c s p).settle t' c' s' p' ∧
      Run.Along (exec code env) (fun P e => F (P.exec code env e).shared) P
        (.call t c :: (replicate m (.step t) ++
          .call t' c' :: replicate m' (.step t'))) := by
  have hidle₁ : (P.settle t c s p).thread t' = none := by rwa [settle_thread_ne hne]
  have hF₁ : F (P.settle t c s p).shared := by rwa [settle_shared]
  have h₁ : (code c').Reaches F (P.settle t c s p).shared p' s' := by rwa [settle_shared]
  obtain ⟨m, hm, hrun⟩ := runs_call env hidle hF h
  obtain ⟨m', hm', hrun'⟩ := runs_call env hidle₁ hF₁ h₁
  refine ⟨m, m', ?_, ?_⟩
  · rw [← cons_append, runs_append, hm, hm']
  · rw [← cons_append]
    refine along_append.2 ⟨hrun, ?_⟩
    rw [hm]
    exact hrun'

/-- Every call in flight satisfies `K` of its caller. -/
def Calls (K : Nat → κ → Prop) (P : Pool σ κ ρ) : Prop := ∀ t c p, P.thread t = some (c, p) → K t c

/-- What holds of every call that is made holds of every call under way. -/
theorem Calls.exec {K : Nat → κ → Prop} (h : P.Calls K) {e : Event κ ε}
    (he : ∀ t c, e = .call t c → K t c) : (P.exec code env e).Calls K := by
  rcases exec_cases code env P e with hex | ⟨t, c, hce, hex⟩ | ⟨t, c, p, -, ht, hex⟩ | ⟨x, -, hex⟩
  all_goals rw [hex]
  · exact h
  · exact forall_settle (fun _ => he t c hce) fun t' c' p' _ => h t' c' p'
  · exact forall_settle (fun _ => h t c p ht) fun t' c' p' _ => h t' c' p'
  · exact h

theorem along_calls {K : Nat → κ → Prop} {C : Pool σ κ ρ → Event κ ε → Prop} {es : List (Event κ ε)}
    (h : P.Calls K) (hes : ∀ t c, .call t c ∈ es → K t c)
    (hrun : Run.Along (exec code env) C P es) :
    Run.Along (exec code env) (fun P e => C P e ∧ P.Calls K) P es := by
  refine (hrun.and_mem (D := (· ∈ es)) fun _ he => he).shows (I := Calls K) (fun P e hC h => ?_)
    (fun P e hC h => ⟨hC.1, h⟩) h
  exact h.exec fun t c he => hes t c (he ▸ hC.2)

theorem done_suffix_exec (code : κ → Prog σ ρ) (env : ε → σ → σ) (P : Pool σ κ ρ) (e : Event κ ε) :
    P.done <:+ (P.exec code env e).done := by
  have hsettle : ∀ t c s p, P.done <:+ (P.settle t c s p).done := by
    intro t c s p
    cases p with
    | ret a => exact suffix_cons _ _
    | act u n => exact suffix_rfl
  rcases exec_cases code env P e with he | ⟨t, c, -, he⟩ | ⟨t, c, p, -, -, he⟩ | ⟨x, -, he⟩
  · simp [he]
  · rw [he]
    exact hsettle _ _ _ _
  · rw [he]
    exact hsettle _ _ _ _
  · simp [he]

/-- What the caller `t` got back, newest first. -/
def returns (P : Pool σ κ ρ) (t : Nat) : List (Ret κ ρ) := P.done.filter (·.tid = t)

theorem returns_settle_ret (P : Pool σ κ ρ) (t : Nat) (c : κ) (s : σ) (a : ρ) :
    (P.settle t c s (.ret a)).returns t = ⟨t, c, a⟩ :: P.returns t := by
  simp [returns, settle]

theorem returns_settle_ne {t t' : Nat} (h : t ≠ t') (c : κ) (s : σ) (p : Prog σ ρ) :
    (P.settle t' c s p).returns t = P.returns t := by
  cases p with
  | ret a => simp [returns, settle, Ne.symm h]
  | act u n => rfl

theorem returns_exec_of_busy {t : Nat} {e : Event κ ε} (h : (P.exec code env e).thread t ≠ none) :
    (P.exec code env e).returns t = P.returns t := by
  have hsettle : ∀ t' c s p, (P.settle t' c s p).thread t ≠ none →
      (P.settle t' c s p).returns t = P.returns t := by
    intro t' c s p hbusy
    by_cases htt : t = t'
    · subst htt
      cases p with
      | ret a => simp [settle] at hbusy
      | act u n => rfl
    · exact returns_settle_ne htt c s p
  rcases exec_cases code env P e with he | ⟨t', c, -, he⟩ | ⟨t', c, p, -, -, he⟩ | ⟨x, -, he⟩
  all_goals rw [he] at h ⊢
  · exact hsettle _ _ _ _ h
  · exact hsettle _ _ _ _ h
  · rfl

theorem exec_of_idle {t : Nat} {e : Event κ ε} (h : P.thread t = none) (he : ∀ c, e ≠ .call t c) :
    (P.exec code env e).thread t = none ∧ (P.exec code env e).returns t = P.returns t := by
  rcases exec_cases code env P e with hex | ⟨t', c, hce, hex⟩ | ⟨t', c, p, -, ht', hex⟩ |
    ⟨x, -, hex⟩
  all_goals rw [hex]
  · exact ⟨h, rfl⟩
  · have hne : t ≠ t' := by
      rintro rfl
      exact he c hce
    rw [settle_thread_ne hne]
    exact ⟨h, returns_settle_ne hne _ _ _⟩
  · have hne : t ≠ t' := by
      rintro rfl
      cases h.symm.trans ht'
    rw [settle_thread_ne hne]
    exact ⟨h, returns_settle_ne hne _ _ _⟩
  · exact ⟨h, rfl⟩

/-- Every call, in flight or returned, satisfies `K` of its caller. -/
def Called (K : Nat → κ → Prop) (P : Pool σ κ ρ) : Prop := P.Calls K ∧ ∀ x ∈ P.done, K x.tid x.call

theorem Called.settle {K : Nat → κ → Prop} (h : P.Called K) {t : Nat} {c : κ} (hK : K t c) (s : σ)
    (p : Prog σ ρ) : (P.settle t c s p).Called K := by
  refine ⟨forall_settle (fun _ => hK) fun t' c' p' _ => h.1 t' c' p', fun x hx => ?_⟩
  rcases settle_done (P := P) (t := t) (c := c) (s := s) (p := p) with hd | ⟨r, -, hd⟩
  · exact h.2 x (hd ▸ hx)
  · rw [hd] at hx
    rcases mem_cons.1 hx with rfl | hx
    exacts [hK, h.2 x hx]

theorem mem_of_done {s : σ} {es : List (Event κ ε)} {x : Ret κ ρ}
    (hx : x ∈ (runs (exec code env) (start s) es).done) : .call x.tid x.call ∈ es := by
  have hrun : Along (exec code env) (fun _ e => e ∈ es) (start s) es :=
    along_of_mem _ fun _ => id
  refine (hrun.inv (I := Called fun t c => .call t c ∈ es) (fun P e he h => ?_)
    ⟨fun t c p h => (by cases h), fun x hx => (by cases hx)⟩).2 x hx
  rcases exec_cases code env P e with hex | ⟨t, c, hce, hex⟩ | ⟨t, c, p, -, ht, hex⟩ |
    ⟨y, -, hex⟩
  all_goals rw [hex]
  · exact h
  · exact h.settle (hce ▸ he) _ _
  · exact h.settle (h.1 t c p ht) _ _
  · exact h

/-- Every call in flight keeps to the guarantee of its call. -/
def Guarded (G : κ → σ → σ → Prop) (P : Pool σ κ ρ) : Prop :=
  ∀ t c p, P.thread t = some (c, p) → p.Guar (G c)

theorem guarded_start (G : κ → σ → σ → Prop) (s : σ) : Guarded G (start s : Pool σ κ ρ) := by
  intro t c p h
  cases h

/-- The calls of a program that keeps to a guarantee always do. -/
theorem Guarded.exec {G : κ → σ → σ → Prop} (hr : ∀ c s, G c s s) (hcode : ∀ c, (code c).Guar (G c))
    (h : P.Guarded G) (e : Event κ ε) : (P.exec code env e).Guarded G := by
  rcases exec_cases code env P e with he | ⟨t, c, -, he⟩ | ⟨t, c, p, -, ht, he⟩ | ⟨x, -, he⟩
  all_goals rw [he]
  · exact h
  · exact forall_settle (fun _ => hcode c) fun t' c' p' _ => h t' c' p'
  · have hnext := ((h t c p ht).next (hr c) P.shared).2
    exact forall_settle (fun _ => hnext) fun t' c' p' _ => h t' c' p'
  · exact h

/-- Every run of calls that keep to their guarantees is one of calls in flight that do. -/
theorem along_guarded {G : κ → σ → σ → Prop} (hr : ∀ c s, G c s s)
    (hcode : ∀ c, (code c).Guar (G c)) {C : Pool σ κ ρ → Event κ ε → Prop} {s : σ}
    {es : List (Event κ ε)}
    (hrun : Run.Along (exec code env) C (start s) es) :
    Run.Along (exec code env) (fun P e => C P e ∧ P.Guarded G) (start s) es :=
  hrun.shows (fun _ e _ h => h.exec hr hcode e) (fun _ _ hC h => ⟨hC, h⟩) (guarded_start G s)

end exec

end Pool

end Conc
