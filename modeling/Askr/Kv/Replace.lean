import Askr.Kv.Route
import Askr.Kv.Seq

/-!
# Replacing a value

A `set` puts its value into the region of its size, and before that it clears the key from the other
one. A `get` looks into the small region and then into the large one, with no common lock. So a
value that crosses the boundary is in neither region for a while (`replaced_unseen`).

Readers see the old value or the new one in every interleaving exactly when the region of the new
value has an entry of the key already that reads as one of the two, and no entry of the key in the
small region reads as anything else while the new value goes to the large one (`Covered`).
-/

namespace Askr.Kv

open Conc Prog Probe List Pool

section
variable (g : Config) (k old new : Bytes)

/-- No entry of the key is past its deadline. -/
def Fresh (s : Mem) : Prop :=
  ∀ r i, HasAt g r k s i → (s.entry r i).expired s.nowSecs = false

/-- **The new value finds an entry to write over**: the first entry of the key in the region of the
new value, in slot `i`, reads as the old value or the new one, and when that is the large region, so
does every entry of the key in the small one. -/
structure Covered (i : Nat) (s : Mem) : Prop where
  leads : Leads g k (home new) s i
  value : (s.entry (home new) i).val = old ∨ (s.entry (home new) i).val = new
  small : home new = .large → ∀ j, HasAt g .small k s j →
    (s.entry .small j).val = old ∨ (s.entry .small j).val = new

/-- What the callers rely on: the entry stays, nothing expires, and time goes on. -/
def CoverRely (i : Nat) (s s' : Mem) : Prop :=
  s.nowMs ≤ s'.nowMs ∧ Covered g k old new i s' ∧ Fresh g k s'

def CoverGuar (i : Nat) (s s' : Mem) : Prop :=
  s'.nowMs = s.nowMs ∧ (Covered g k old new i s → Covered g k old new i s')

end

variable {g : Config} {k old new : Bytes} {r : Region} {s s' : Mem} {i : Nat}

/-! ## What the calls do -/

theorem CoverGuar.refl (s : Mem) : CoverGuar g k old new i s s := ⟨rfl, id⟩

theorem CoverGuar.bury (s : Mem) (j : Nat) :
    CoverGuar g k old new i s (s.bury (home new).other j) := by
  refine ⟨rfl, fun h => ?_⟩
  have hother : (s.bury (home new).other j).entry (home new) = s.entry (home new) :=
    s.put_region _ _ _ (home new).other_ne.symm
  refine ⟨h.leads.congr hother, by rw [hother]; exact h.value, fun hl x hx => ?_⟩
  have hr : (home new).other = .small := by rw [hl]; rfl
  rw [hr] at hx ⊢
  by_cases hxj : x = j
  · subst hxj
    simp [HasAt, Mem.bury, Entry.matches] at hx
  · rw [Mem.bury, Mem.put_ne _ _ _ _ hxj]
    exact h.small hl x (by simpa [HasAt, Mem.bury, hxj] using hx)

theorem CoverGuar.write (s : Mem) (expires : Nat) :
    CoverGuar g k old new i s (s.write (home new) i k new (g.hash k) expires) := by
  refine ⟨rfl, fun h => ⟨⟨?_, ⟨h.leads.place.1, ?_⟩, ?_⟩, ?_, fun hl x hx => ?_⟩⟩
  · simp [HasAt, Mem.write, Entry.matches, h.leads.has.length_le]
  · exact fun j hj => (CallEffect.write s i new expires).fills _ j (h.leads.place.2 j hj)
  · intro j hj hhas
    have hji : j ≠ i := by
      rintro rfl
      exact not_mem_passed hj
    exact h.leads.first j hj (by simpa [HasAt, Mem.write, hji] using hhas)
  · exact .inr (by simp [Mem.write])
  · have hne : Region.small ≠ home new := by simp [hl]
    rw [Mem.write, Mem.put_region _ _ _ _ hne]
    exact h.small hl x (by simpa [HasAt, Mem.write, hne] using hx)

section
variable (hi : i ∈ g.window (home new) (g.hash k)) {done rest : List Nat} {now : Nat}
include hi

theorem setScan_covered {expires : Nat} {a : SetAcc}
    (hpath : g.window (home new) (g.hash k) = done ++ rest) (hdone : i ∉ done) :
    (setScan g (home new) k new (g.hash k) expires now rest a).Valid
      (CoverRely g k old new i) (CoverGuar g k old new i) (fun _ _ => True) s := by
  induction rest generalizing done a s with
  | nil =>
    rw [append_nil] at hpath
    exact absurd (hpath ▸ hi) hdone
  | cons j rest ih =>
    refine valid_atom fun s' hs' => ?_
    rcases hs'.2.1.leads.step hpath hdone with rfl | ⟨hdone', hne, hm⟩
    · have hm : (s'.entry (home new) j).matches k (g.hash k) = true := hs'.2.1.leads.has
      simp only [hm, if_true]
      exact ⟨.write s' expires, trivial⟩
    · simp only [hm, hne, Bool.false_eq_true, if_false]
      exact ⟨.refl s', ih (by simp [hpath]) hdone'⟩

theorem getScan_covered (hpath : g.window (home new) (g.hash k) = done ++ rest) (hdone : i ∉ done)
    (hnow : now ≤ s.nowSecs) :
    (getScan (home new) k (g.hash k) now rest).Valid (CoverRely g k old new i)
      (CoverGuar g k old new i) (fun v _ => v = some old ∨ v = some new) s := by
  induction rest generalizing done s with
  | nil =>
    rw [append_nil] at hpath
    exact absurd (hpath ▸ hi) hdone
  | cons j rest ih =>
    refine valid_read .refl fun s' hs' => ?_
    have hnow' : now ≤ s'.nowSecs := Nat.le_trans hnow (Nat.div_le_div_right hs'.1)
    rcases hs'.2.1.leads.step hpath hdone with rfl | ⟨hdone', hne, hm⟩
    · have hm : (s'.entry (home new) j).matches k (g.hash k) = true := hs'.2.1.leads.has
      have hexp := Entry.expired_mono hnow' (hs'.2.2 _ j hs'.2.1.leads.has)
      simp only [hm, hexp, if_true, Bool.false_eq_true, if_false]
      exact hs'.2.1.value.imp (congrArg some) (congrArg some)
    · simp only [hm, hne, Bool.false_eq_true, if_false]
      exact ih (by simp [hpath]) hdone' hnow'

omit hi in
theorem getScan_small_covered (hl : home new = .large) (hnow : now ≤ s.nowSecs) (w : List Nat) :
    (getScan .small k (g.hash k) now w).Valid (CoverRely g k old new i) (CoverGuar g k old new i)
      (fun v _ => v = none ∨ v = some old ∨ v = some new) s := by
  induction w generalizing s with
  | nil => exact .inl rfl
  | cons j w ih =>
    refine valid_read .refl fun s' hs' => ?_
    have hnow' : now ≤ s'.nowSecs := Nat.le_trans hnow (Nat.div_le_div_right hs'.1)
    split
    · rename_i hm
      have hexp := Entry.expired_mono hnow' (hs'.2.2 _ j hm)
      simp only [hexp, Bool.false_eq_true, if_false]
      exact .inr ((hs'.2.1.small hl j hm).imp (congrArg some) (congrArg some))
    · split
      exacts [.inl rfl, ih hnow']

end

/-- A call of `set` with the new value, or of `get`. -/
def Replaces (k new : Bytes) (c : Call) : Prop :=
  c.key = k ∧ (c.req = .get ∨ ∃ ttl, c.req = .set new ttl)

/-- A `get` returned one of the two values. -/
def OldOrNew (old new : Bytes) (c : Call) (r : Res) : Prop :=
  c.req = .get → r = .value (some old) ∨ r = .value (some new)

section
variable (hi : i ∈ g.window (home new) (g.hash k)) (hslots : g.slots (home new) ≠ 0)
  (hk : k.length ≤ KEY_MAX)
include hi hslots hk

theorem get_covered : (get g k).Valid (CoverRely g k old new i) (CoverGuar g k old new i)
      (fun v _ => v = some old ∨ v = some new) s := by
  have hget : ∀ {s}, ((home new).get g k (g.hash k)).Valid (CoverRely g k old new i)
      (CoverGuar g k old new i) (fun v _ => v = some old ∨ v = some new) s := by
    intro s
    rw [Region.get, if_neg hslots]
    exact valid_read .refl fun s' _ => getScan_covered hi (nil_append _).symm (by simp)
      (Nat.le_refl _)
  rw [get, if_neg (by omega)]
  refine Valid.bind ?_
  cases hh : home new with
  | small =>
    rw [hh] at hget
    refine hget.weaken (fun _ _ => id) (fun _ _ => id) fun v s hv => ?_
    rcases hv with rfl | rfl
    exacts [.inl rfl, .inr rfl]
  | large =>
    rw [hh] at hget
    have hsmall : (Region.small.get g k (g.hash k)).Valid (CoverRely g k old new i)
        (CoverGuar g k old new i) (fun v _ => v = none ∨ v = some old ∨ v = some new) s := by
      rw [Region.get]
      split
      · exact .inl rfl
      · exact valid_read .refl fun s' _ => getScan_small_covered hh (Nat.le_refl _) _
    refine hsmall.weaken (fun _ _ => id) (fun _ _ => id) fun v s hv => ?_
    rcases hv with rfl | rfl | rfl
    exacts [hget, .inl rfl, .inr rfl]

theorem set_covered (hv : new.length ≤ VAL_LARGE) (ttl : Nat) :
    (set g k new ttl).Valid (CoverRely g k old new i) (CoverGuar g k old new i)
      (fun _ _ => True) s := by
  rw [set_eq hk hv]
  refine Valid.bind (((Region.delete_buries g _ k _).mono fun s s' hs => ?_).valid fun _ s => ?_)
  · rcases hs with rfl | ⟨j, rfl⟩
    exacts [.refl _, .bury s j]
  · rw [Region.set, if_neg hslots, if_neg (Nat.not_lt.2 (length_le_valMax hv))]
    exact valid_read .refl fun s' _ => setScan_covered hi (nil_append _).symm (by simp)

theorem code_covered (hv : new.length ≤ VAL_LARGE) {c : Call} (hc : Replaces k new c) :
    (code g c).Valid (CoverRely g k old new i) (CoverGuar g k old new i)
      (fun r _ => OldOrNew old new c r) s := by
  obtain ⟨rfl, hreq | ⟨ttl, hreq⟩⟩ := hc
  · rw [code, hreq]
    refine Valid.map _ ((get_covered hi hslots hk).weaken (fun _ _ => id) (fun _ _ => id) ?_)
    exact fun v _ h _ => h.imp (congrArg _) (congrArg _)
  · rw [code, hreq]
    refine Valid.map _ ((set_covered hi hslots hk hv ttl).weaken (fun _ _ => id) (fun _ _ => id) ?_)
    intro b _ _ hget
    rw [hreq] at hget
    cases hget

end

/-! ## Schedules -/

section
variable (g : Config) (k old new : Bytes)

/-- No entry of the key expires in the course of the events. -/
def FreshRun (P : Pool Mem Call Res) (es : List (Event Call Nat)) : Prop :=
  Run.Along (exec (code g) tick) (fun P e => Fresh g k (P.exec (code g) tick e).shared) P es

/-- What holds in every state while the value is replaced. -/
structure ReplaceInv (i : Nat) (P : Pool Mem Call Res) : Prop where
  covered : Covered g k old new i P.shared
  fresh : Fresh g k P.shared
  valid : P.Valid (fun _ => CoverRely g k old new i) (fun _ => CoverGuar g k old new i)
    fun c r _ => OldOrNew old new c r
  done : ∀ x ∈ P.done, OldOrNew old new x.call x.res

end

/-- Every event keeps the invariant. -/
theorem ReplaceInv.exec {P : Pool Mem Call Res} (h : ReplaceInv g k old new i P)
    (hslots : g.slots (home new) ≠ 0) (hv : new.length ≤ VAL_LARGE) {e : Event Call Nat}
    (he : ∀ t c, e = .call t c → Replaces k new c)
    (hfresh : Fresh g k (P.exec (code g) tick e).shared) :
    ReplaceInv g k old new i (P.exec (code g) tick e) := by
  have hself : CoverRely g k old new i P.shared P.shared := ⟨Nat.le_refl _, h.covered, h.fresh⟩
  have hcall : ∀ t c, e = .call t c → (code g c).Valid (CoverRely g k old new i)
      (CoverGuar g k old new i) (fun r _ => OldOrNew old new c r) P.shared := fun t c hev =>
    code_covered h.covered.leads.place.1 hslots h.covered.leads.has.length_le hv (he t c hev)
  obtain ⟨hclock, hcovered⟩ : P.shared.nowMs ≤ (P.exec (code g) tick e).shared.nowMs ∧
      Covered g k old new i (P.exec (code g) tick e).shared := by
    rcases h.valid.moves (fun _ _ _ _ => hself) (fun _ => .refl _) e (code g) tick with hm |
      ⟨-, -, -, -, -, hm⟩ | ⟨d, -, hm⟩
    · rw [hm]
      exact ⟨Nat.le_refl _, h.covered⟩
    · exact ⟨Nat.le_of_eq hm.1.symm, hm.2 h.covered⟩
    · rw [hm]
      exact ⟨Nat.le_add_right _ _, h.covered.leads.congr rfl, h.covered.value, h.covered.small⟩
  refine ⟨hcovered, hfresh, ?_, fun x hx => ?_⟩
  · refine h.valid.exec (fun _ _ _ _ => hself) (fun _ => .refl _) e hcall (fun _ _ _ _ h h' => ?_)
      fun _ _ _ _ _ => ⟨hclock, hcovered, hfresh⟩
    exact ⟨Nat.le_trans h.1 h'.1, h'.2⟩
  · exact h.valid.forall_done (fun _ _ _ _ => hself) (fun _ => .refl _) e hcall (fun _ _ h => h)
      h.done x hx

theorem old_or_new (hcov : Covered g k old new i s) (hfresh : Fresh g k s)
    (hslots : g.slots (home new) ≠ 0) (hv : new.length ≤ VAL_LARGE)
    {es : List (Event Call Nat)} (hes : ∀ e ∈ es, ∀ t c, e = .call t c → Replaces k new c)
    (hrun : FreshRun g k (start s) es) :
    ∀ x ∈ (after g s es).done, OldOrNew old new x.call x.res :=
  ((hrun.and_mem hes).inv (I := ReplaceInv g k old new i)
    (fun _ _ hc h => h.exec hslots hv hc.2 hc.1)
    ⟨hcov, hfresh, valid_start s, by simp [start]⟩).done

/-! ## A value that is seen by no reader -/

theorem Fresh.bury (h : Fresh g k s) (r : Region) (j : Nat) : Fresh g k (s.bury r j) := by
  intro r' x hx
  rcases s.bury_cases r j r' x with hst | heq
  · cases hst.symm.trans (Entry.matches_iff.1 hx).1
  · rw [HasAt, heq] at hx
    rw [heq]
    exact h r' x hx

theorem Fresh.buries (h : Fresh g k s) (hs : s' = s ∨ ∃ j, s' = s.bury r j) : Fresh g k s' := by
  rcases hs with rfl | ⟨j, rfl⟩
  exacts [h, h.bury r j]

theorem get_fresh (g : Config) (k : Bytes) :
    (get g k).Guar fun s s' => Fresh g k s → Fresh g k s' := by
  have hget : ∀ r : Region, (r.get g k (g.hash k)).Guar fun s s' => Fresh g k s → Fresh g k s' :=
    fun r => (Region.get_buries g r k _).mono fun _ _ hs hf => hf.buries hs
  rw [get]
  split
  · trivial
  · refine (hget .small).bind fun v => ?_
    cases v
    exacts [hget .large, trivial]

/-- A `delete` on its way: the slots it has passed have no entry of the key any more, and the rest
is as it was. -/
theorem deleteScan_reaches (pre rest : List Nat) (found : Bool)
    (hne : ∀ x ∈ pre, (s.entry r x).state ≠ .empty) (hf : Fresh g k s) :
    ∃ found' s', Reaches (Fresh g k) (deleteScan r k (g.hash k) (pre ++ rest) found) s
        (deleteScan r k (g.hash k) rest found') s' ∧ Fresh g k s' ∧
      (∀ x ∈ pre, ¬ HasAt g r k s' x ∧ (s'.entry r x).state ≠ .empty) ∧
      ∀ x, x ∉ pre → s'.entry r x = s.entry r x := by
  induction pre generalizing s found with
  | nil => exact ⟨found, s, .refl _ _, hf, by simp, by simp⟩
  | cons a pre ih =>
    have ha : (s.entry r a).state ≠ .empty := hne a (by simp)
    obtain ⟨found₁, s₁, hstep, hf₁, ⟨hno, hne₁⟩, hsame⟩ : ∃ found₁ s₁, Reaches (Fresh g k)
          (deleteScan r k (g.hash k) (a :: (pre ++ rest)) found) s
          (deleteScan r k (g.hash k) (pre ++ rest) found₁) s₁ ∧ Fresh g k s₁ ∧
        (¬ HasAt g r k s₁ a ∧ (s₁.entry r a).state ≠ .empty) ∧
        ∀ x, x ≠ a → s₁.entry r x = s.entry r x := by
      cases hm : (s.entry r a).matches k (g.hash k) with
      | true =>
        refine ⟨true, s.bury r a, reaches_of_next ?_ (hf.bury r a), hf.bury r a,
          by simp [HasAt, Mem.bury, Entry.matches], fun x hx => s.put_ne r a _ hx⟩
        simp [deleteScan, ha, hm]
      | false =>
        refine ⟨found, s, reaches_of_next ?_ hf, hf, ⟨by simp [HasAt, hm], ha⟩, fun _ _ => rfl⟩
        simp [deleteScan, ha, hm]
    have hne₁' : ∀ x ∈ pre, (s₁.entry r x).state ≠ .empty := fun x hx => by
      by_cases hxa : x = a
      · exact hxa ▸ hne₁
      · rw [hsame x hxa]
        exact hne x (by simp [hx])
    obtain ⟨found', s', hreach, hf', hpre, hrest⟩ := ih found₁ hne₁' hf₁
    refine ⟨found', s', hstep.trans hreach, hf', fun x hx => ?_, fun x hx => ?_⟩
    · by_cases hxp : x ∈ pre
      · exact hpre x hxp
      · obtain rfl : x = a := (mem_cons.1 hx).resolve_right hxp
        rw [HasAt, hrest x hxp]
        exact ⟨hno, hne₁⟩
    · rw [mem_cons, not_or] at hx
      rw [hrest x hx.2, hsame x hx.1]

section
variable (g : Config) (k old new : Bytes) (ttl : Nat) (s : Mem)

/-- Only lookups of the key are called. -/
def OnlyGets (e : Event Call Nat) : Prop := ∀ t c, e = .call t c → c.key = k ∧ c.req = .get

/-- **Replacing a value is atomic for readers**: in every interleaving of one `set` with any number
of `get`s in which no entry of the key expires, every `get` returns the old value or the new one. -/
def ReplaceAtomic : Prop :=
  ∀ (es es' : List (Event Call Nat)) (t : Nat) (c : Call), c.key = k → c.req = .set new ttl →
    (∀ e ∈ es, OnlyGets k e) → (∀ e ∈ es', OnlyGets k e) →
    FreshRun g k (start s) (es ++ .call t c :: es') →
    ∀ x ∈ (after g s (es ++ .call t c :: es')).done, OldOrNew old new x.call x.res

end

theorem not_replaceAtomic {ttl : Nat} {p : Prog Mem Bool} (hk : k.length ≤ KEY_MAX)
    (hv : new.length ≤ VAL_LARGE) (hf : Fresh g k s)
    (hreach : Reaches (Fresh g k) ((home new).other.delete g k (g.hash k)) s p s')
    (hf' : Fresh g k s') (hold : ((get g k).run s').2 ≠ some old)
    (hnew : ((get g k).run s').2 ≠ some new) : ¬ ReplaceAtomic g k old new ttl s := by
  intro h
  have hset := (hreach.bind fun _ => (home new).set g k new (g.hash k) ttl).bind
    fun b => .ret (Res.flag b)
  rw [← set_eq hk hv] at hset
  have hget := ((get_fresh g k).map Res.value).reaches (fun _ _ hs => hs) hf'
  rw [run_map] at hget
  obtain ⟨m, m', hend, hrun⟩ := runs_call_call (P := start s) tick
    (show 1 ≠ 0 by decide) rfl rfl hf
    (show (code g ⟨none, k, .set new ttl⟩).Reaches _ _ _ _ from hset) hf'
    (show (code g ⟨none, k, .get⟩).Reaches _ _ _ _ from hget)
  have hx := h [] _ 0 ⟨none, k, .set new ttl⟩ rfl rfl (by simp) (fun e he t c hec => ?_) hrun
    ⟨1, ⟨none, k, .get⟩, .value ((get g k).run s').2⟩ ?_ rfl
  · rcases hx with hx | hx
    · exact hold (Res.value.inj hx)
    · exact hnew (Res.value.inj hx)
  · subst hec
    simp only [mem_append, mem_replicate, reduceCtorEq, and_false, mem_cons,
      Event.call.injEq, or_false, false_or] at he
    rw [he.2]
    exact ⟨rfl, rfl⟩
  · rw [nil_append, after, hend]
    simp [settle]

section
variable (hin : InPlace g k s) (hf : Fresh g k s)
include hin hf

variable {ttl : Nat} (hk : k.length ≤ KEY_MAX) (hv : new.length ≤ VAL_LARGE)
include hk hv

theorem unseen_of_absent (hno : ∀ j, ¬ HasAt g (home new) k s j) :
    ¬ ReplaceAtomic g k old new ttl s := by
  obtain ⟨b, s', hreach, hf', hgone, hsame⟩ := exists_cleared hin (home new)
    (fun _ _ hf => hf.bury _ _) hf
  have hnone : (get g k).run s' = (s', none) := by
    refine get_gone fun r j hj => ?_
    rcases (home new).eq_or_other r with rfl | rfl
    exacts [hno j (by simpa [HasAt, hsame] using hj), hgone j hj]
  exact not_replaceAtomic hk hv hf hreach hf' (by simp [hnone]) (by simp [hnone])

theorem unseen_of_stale (hl : home new = .large) (hi : Leads g k .large s i)
    (hold : (s.entry .large i).val ≠ old) (hnew : (s.entry .large i).val ≠ new) :
    ¬ ReplaceAtomic g k old new ttl s := by
  obtain ⟨b, s', hreach, hf', hgone, hsame⟩ := exists_cleared hin .large
    (fun _ _ hf => hf.bury _ _) hf
  have hget := get_leads (hin .large i hi.has).1 (fun _ => hgone) (hi.congr hsame)
    (hf' _ i (hi.congr hsame).has)
  rw [hsame] at hget
  exact not_replaceAtomic hk hv hf (hl ▸ hreach) hf' (by simpa [hget] using hold)
    (by simpa [hget] using hnew)

theorem unseen_of_stale_small (hl : home new = .large) (hbad : ∃ j, HasAt g .small k s j ∧
      (s.entry .small j).val ≠ old ∧ (s.entry .small j).val ≠ new) :
    ¬ ReplaceAtomic g k old new ttl s := by
  obtain ⟨j₀, hj₀, hold₀, hnew₀⟩ := hbad
  have hsome : ((g.window .small (g.hash k)).find? fun x =>
      (s.entry .small x).matches k (g.hash k) && (s.entry .small x).val ≠ old &&
        (s.entry .small x).val ≠ new).isSome := by
    refine find?_isSome.2 ⟨j₀, (hin .small j₀ hj₀).2.1, ?_⟩
    simp [show (s.entry .small j₀).matches k (g.hash k) = true from hj₀, hold₀, hnew₀]
  obtain ⟨j, hj⟩ := Option.isSome_iff_exists.1 hsome
  have hj' := find?_some hj
  simp only [ne_eq, decide_not, Bool.and_eq_true, Bool.not_eq_true', decide_eq_false_iff_not] at hj'
  obtain ⟨⟨hhas, hold⟩, hnew⟩ := hj'
  obtain ⟨hslots, hmem, hpre⟩ := hin .small j hhas
  obtain ⟨post, hpath⟩ := passed_append hmem
  obtain ⟨found, s', hreach, hf', hpassed, hsame⟩ :=
    deleteScan_reaches _ (j :: post) false hpre hf
  have hjs := hsame j not_mem_passed
  have hleads : Leads g k .small s' j := ⟨by rwa [HasAt, hjs],
    ⟨hmem, fun x hx => (hpassed x hx).2⟩, fun x hx => (hpassed x hx).1⟩
  have hget := get_leads hslots (fun h => by cases h) hleads (hf' _ j hleads.has)
  rw [hjs] at hget
  have hdelete : (home new).other.delete g k (g.hash k) =
      deleteScan .small k (g.hash k) (g.window .small (g.hash k)) false := by
    rw [hl, Region.other, Region.delete, if_neg hslots]
  rw [← hpath, ← hdelete] at hreach
  exact not_replaceAtomic hk hv hf hreach hf' (by simpa [hget] using hold)
    (by simpa [hget] using hnew)

end

/-- **When replacing a value is atomic.** The key is live with the old value, none of its entries is
expired, and the new value fits a region that is mapped: every reader sees one of the two values, in
every interleaving, if and only if the new value finds an entry to write over. -/
theorem replaceAtomic_iff {ttl : Nat} (hin : InPlace g k s) (hf : Fresh g k s)
    (hlive : ((get g k).run s).2 = some old) (hv : new.length ≤ VAL_LARGE)
    (hslots : g.slots (home new) ≠ 0) :
    ReplaceAtomic g k old new ttl s ↔ ∃ i, Covered g k old new i s := by
  have hk : k.length ≤ KEY_MAX := by
    by_contra hlong
    rw [get, if_pos (Nat.lt_of_not_le hlong)] at hlive
    cases hlive
  constructor
  · intro h
    by_contra hno
    by_cases habs : ∃ j, HasAt g (home new) k s j
    · obtain ⟨j, hj⟩ := habs
      obtain ⟨i, hi⟩ := exists_leads hin hj
      by_cases hval : (s.entry (home new) i).val = old ∨ (s.entry (home new) i).val = new
      · have hbad : ¬ (home new = .large → ∀ j, HasAt g .small k s j →
            (s.entry .small j).val = old ∨ (s.entry .small j).val = new) :=
          fun hs => hno ⟨i, hi, hval, hs⟩
        obtain ⟨hl, hbad⟩ := Classical.not_imp.1 hbad
        refine unseen_of_stale_small hin hf hk hv hl ?_ h
        simpa only [not_forall, not_or, exists_prop] using hbad
      · rw [not_or] at hval
        cases hh : home new with
        | small =>
          rw [hh] at hi hval
          rw [get_leads (hin .small i hi.has).1 (fun h => by cases h) hi (hf _ i hi.has)] at hlive
          exact hval.1 (Option.some.inj hlive)
        | large =>
          rw [hh] at hi hval
          exact unseen_of_stale hin hf hk hv hh hi hval.1 hval.2 h
    · exact unseen_of_absent hin hf hk hv (fun j hj => habs ⟨j, hj⟩) h
  · rintro ⟨i, hi⟩ es es' t c hc hreq hes hes' hrun
    refine old_or_new hi hf hslots hv (fun e he t' c' hec => ?_) hrun
    rcases mem_append.1 he with he | he
    · obtain ⟨h1, h2⟩ := hes e he t' c' hec
      exact ⟨h1, .inl h2⟩
    · rcases mem_cons.1 he with rfl | he
      · cases hec
        exact ⟨hc, .inr ⟨ttl, hreq⟩⟩
      · obtain ⟨h1, h2⟩ := hes' e he t' c' hec
        exact ⟨h1, .inl h2⟩

/-- Replacing a value that is live is atomic for readers, whatever the sizes of the two values. -/
def ReplacesAtomically (g : Config) : Prop :=
  ∀ k old new ttl s, InPlace g k s → Fresh g k s → ((get g k).run s).2 = some old →
    new.length ≤ VAL_LARGE → g.slots (home new) ≠ 0 → ReplaceAtomic g k old new ttl s

/-- The key whose value is replaced. -/
def k2 : Bytes := Ns.key none (Bytes.ofString "k2")

def storedSmall : Mem := ran both 0 [.call (callOn "k2" (.set [1] 0))]

theorem inPlace_storedSmall : InPlace both k2 storedSmall :=
  fun r i hi => (soundBoth_ran both 0 _ r).place _ i hi

theorem fresh_storedSmall : Fresh both k2 storedSmall := by
  intro r i hi
  have hmem := (inPlace_storedSmall r i hi).2.1
  revert hi
  revert hmem
  revert i
  cases r <;> decide

/-- The new value does not fit the small region: it is cleared, a lookup finds nothing, and then the
value goes to the large region. -/
theorem replaced_unseen : ¬ ReplacesAtomically both := by
  intro h
  have hlen : (replicate 4097 (2 : UInt8)).length ≤ VAL_LARGE := by
    rw [length_replicate]
    decide
  have hhome : home (replicate 4097 2) = .large := by
    rw [home, length_replicate]
    decide
  refine unseen_of_absent inPlace_storedSmall fresh_storedSmall (by decide) hlen (fun j hj => ?_)
    (h k2 [1] (replicate 4097 2) 0 storedSmall inPlace_storedSmall fresh_storedSmall
      (by decide) hlen (by rw [hhome]; decide))
  rw [hhome] at hj
  have hmem := (inPlace_storedSmall .large j hj).2.1
  revert hj
  revert hmem
  revert j
  decide

theorem replaced_in_place :
    ((get both k2).run storedSmall).2 = some [1] ∧ ReplaceAtomic both k2 [1] [2] 0 storedSmall := by
  have hlive : ((get both k2).run storedSmall).2 = some [1] := by decide
  refine ⟨hlive, (replaceAtomic_iff inPlace_storedSmall fresh_storedSmall hlive (by decide)
    (by decide)).2 ⟨14, ⟨by decide, ?_, by decide⟩, .inl (by decide),
      fun h => (by cases h)⟩⟩
  exact (inPlace_storedSmall .small 14 (by decide)).2

end Askr.Kv
