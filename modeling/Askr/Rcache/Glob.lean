import Askr.Data.Glob
import Askr.Rcache.Table

/-!
# What `glob_match` matches

`globMatch` compares letters before it asks for a `*`, so where the text has a `*` a `*` of the
pattern is taken for that letter. What it accepts are the matches in which every `*` of the pattern
that begins at a `*` of the text stands for just that letter (`Reads`).

The loop walks pattern and text once and goes back to the last `*` only. A position is still good
when the rest of the pattern reads the rest of the text, or does after the last `*` has taken more
letters (`Hopeful`). No step makes a hopeless position hopeful (`hopeful_of_step`), and none loses a
match (`hopeful_step`): a match in which an earlier `*` takes more is never behind the walk
(`reads_append`), so the last one can take what it needs.
-/

namespace Askr.Rcache

open Glob List Option Bytes

/-- Glob matching with `*` and `?`. -/
abbrev GlobMatches (p t : Bytes) : Prop := Matches 42 63 p t

/-- The text is read by the pattern letter by letter, where a `*` stands for the letter `*` if that
is what the text has there, and for any string otherwise. -/
inductive Reads : Bytes → Bytes → Prop where
  | nil : Reads [] []
  | letter {a b : UInt8} {p t : Bytes} : a = 63 ∨ a = b → Reads p t → Reads (a :: p) (b :: t)
  | star {p s t : Bytes} : t.head? ≠ some 42 → s <:+ t → Reads p s → Reads (42 :: p) t

/-- What is read is matched. -/
theorem Reads.matches {p t : Bytes} (h : Reads p t) : GlobMatches p t := by
  induction h with
  | nil => exact matches_nil.2 rfl
  | letter hab _ ih => exact matches_cons.2 ⟨_, _, rfl, stands_singleton hab, ih⟩
  | star _ hs _ ih => exact matches_many_cons.2 ⟨_, hs, ih⟩

/-- What is matched is read if not both have a `*`. -/
theorem reads_of_matches {p t : Bytes} (hstar : 42 ∈ p → 42 ∉ t) (h : GlobMatches p t) :
    Reads p t := by
  induction p generalizing t with
  | nil => exact matches_nil.1 h ▸ .nil
  | cons a p ih =>
    by_cases ha : a = 42
    · subst ha
      have ht := hstar (.head _)
      obtain ⟨s, hs, h⟩ := matches_many_cons.1 h
      exact .star (fun hhead => ht (mem_of_mem_head? hhead)) hs
        (ih (fun _ hmem => ht (hs.subset hmem)) h)
    · obtain ⟨b, s, rfl, hab, h⟩ := (matches_cons_of_ne ha).1 h
      exact .letter hab (ih (fun hp hmem => hstar (.tail _ hp) (.tail _ hmem)) h)

/-- Nothing but `*` reads the empty text. -/
theorem reads_nil_right {p : Bytes} : Reads p [] ↔ ∀ a ∈ p, a = 42 :=
  ⟨fun h => matches_nil_right.1 h.matches,
    fun h => reads_of_matches (fun _ => not_mem_nil) (matches_nil_right.2 h)⟩

/-- **A reading is never behind the walk.** The letters `u` of the text were walked over with the
letters `q` of the pattern. If `q ++ p` reads what is left somewhere on the way, then `p` reads what
is left somewhere behind `u`. -/
theorem reads_append {p t q u r : Bytes} (hqu : Forall₂ (fun a b => a = 63 ∨ a = b) q u)
    (hr : r <:+ u ++ t) (h : Reads (q ++ p) r) : ∃ s, s <:+ t ∧ Reads p s := by
  induction hqu generalizing r with
  | nil => exact ⟨r, hr, h⟩
  | @cons a b q u hab _ ih =>
    rw [cons_append] at hr h
    cases h with
    | letter _ h =>
      rcases suffix_cons_iff.1 hr with heq | hr
      · exact ih ((cons.inj heq).2 ▸ suffix_rfl) h
      · exact ih ((suffix_cons _ _).trans hr) h
    | star hhead hs h =>
      have hb : b = 42 := hab.elim (fun h => absurd h (by decide)) Eq.symm
      rcases suffix_cons_iff.1 hr with rfl | hr
      · exact absurd (congrArg some hb) hhead
      · exact ih (hs.trans hr) h

/-- The walk can still succeed from here: as it stands, or with more letters for the last `*`. -/
def Hopeful : GlobPos → Prop
  | (p, t, star) => Reads p t ∨ ∃ ps m b r, star = some (ps, b :: m) ∧ r <:+ m ∧ Reads ps r

/-- Since the last `*` the walk has gone over letters of the text with letters of the pattern. -/
def Since : GlobPos → Prop
  | (p, t, star) => ∀ ps m, star = some (ps, m) →
      ∃ q u, ps = q ++ p ∧ m = u ++ t ∧ Forall₂ (fun a b => a = 63 ∨ a = b) q u

/-- The position is one in the pattern and the text of the call. -/
def Within (pattern text : Bytes) : GlobPos → Prop
  | (p, t, star) => p <:+ pattern ∧ t <:+ text ∧
      ∀ ps m, star = some (ps, m) → ps <:+ pattern ∧ m <:+ text

/-- The turns the loop can still take: every letter of the text from the last `*` on may restart the
pattern. -/
def GlobPos.turns (n : Nat) : GlobPos → Nat
  | (p, t, star) => ((star.map (·.2)).getD t).length * (n + 1) + p.length

section Step

variable {p ts : Bytes} {t : UInt8} {star : Option (Bytes × Bytes)} {pos : GlobPos}

/-- What one turn of the loop does: take a letter, open a `*`, go back to the last one, or give
up. -/
theorem globStep_cases (p : Bytes) (t : UInt8) (ts : Bytes) (star : Option (Bytes × Bytes)) :
    (∃ a ps, p = a :: ps ∧ (a = 63 ∨ a = t) ∧ globStep p t ts star = some (ps, ts, star)) ∨
    (∃ ps, p = 42 :: ps ∧ t ≠ 42 ∧
      globStep p t ts star = some (ps, t :: ts, some (ps, t :: ts))) ∨
    (¬ Reads p (t :: ts) ∧ ((∃ ps b m, star = some (ps, b :: m) ∧
          globStep p t ts star = some (ps, m, some (ps, m))) ∨
        (∀ ps b m, star ≠ some (ps, b :: m)) ∧ globStep p t ts star = none)) := by
  cases p with
  | nil =>
    refine .inr (.inr ⟨(fun h => by cases h), ?_⟩)
    rcases star with _ | ⟨ps, _ | ⟨b, m⟩⟩
    · exact .inr ⟨by simp, rfl⟩
    · exact .inr ⟨by simp, rfl⟩
    · exact .inl ⟨ps, b, m, rfl, rfl⟩
  | cons a ps =>
    by_cases hlit : a = 63 ∨ a = t
    · exact .inl ⟨a, ps, rfl, hlit, if_pos hlit⟩
    by_cases hstar : a = 42
    · exact .inr (.inl ⟨ps, by rw [hstar], fun ht => hlit (.inr (hstar.trans ht.symm)),
        (if_neg hlit).trans (if_pos hstar)⟩)
    refine .inr (.inr ⟨fun h => ?_, ?_⟩)
    · cases h with
      | letter hab _ => exact hlit hab
      | star => exact hstar rfl
    · rcases star with _ | ⟨ps, _ | ⟨b, m⟩⟩
      · exact .inr ⟨by simp, (if_neg hlit).trans (if_neg hstar)⟩
      · exact .inr ⟨by simp, (if_neg hlit).trans (if_neg hstar)⟩
      · exact .inl ⟨ps, b, m, rfl, (if_neg hlit).trans (if_neg hstar)⟩

/-- If the walk can succeed after a step, it could before it. -/
theorem hopeful_of_step (h : globStep p t ts star = some pos) (hpos : Hopeful pos) :
    Hopeful (p, t :: ts, star) := by
  obtain ⟨a, ps, rfl, ha, hr⟩ | ⟨ps, rfl, ht, hr⟩ | ⟨-, ⟨ps, b, m, rfl, hr⟩ | ⟨-, hr⟩⟩ :=
    globStep_cases p t ts star
  · cases hr.symm.trans h
    rcases hpos with hm | hlater
    · exact .inl (.letter ha hm)
    · exact .inr hlater
  · cases hr.symm.trans h
    have hhead : (t :: ts).head? ≠ some 42 := fun heq => ht (Option.some.inj heq)
    rcases hpos with hm | ⟨ps, m, b, r, hs, hsuf, hm⟩
    · exact .inl (.star hhead suffix_rfl hm)
    · cases hs
      exact .inl (.star hhead (hsuf.trans (suffix_cons _ _)) hm)
  · cases hr.symm.trans h
    rcases hpos with hm | ⟨ps, m, c, r, hs, hsuf, hm⟩
    · exact .inr ⟨ps, m, b, m, rfl, suffix_rfl, hm⟩
    · cases hs
      exact .inr ⟨ps, c :: m, b, r, rfl, hsuf.trans (suffix_cons _ _), hm⟩
  · cases hr.symm.trans h

/-- A step stays within the pattern and the text. -/
theorem within_step {pattern text : Bytes} (h : globStep p t ts star = some pos)
    (hw : Within pattern text (p, t :: ts, star)) : Within pattern text pos := by
  obtain ⟨hp, ht, hstar⟩ := hw
  obtain ⟨a, ps, rfl, -, hr⟩ | ⟨ps, rfl, -, hr⟩ | ⟨-, ⟨ps, b, m, rfl, hr⟩ | ⟨-, hr⟩⟩ :=
    globStep_cases p t ts star
  · cases hr.symm.trans h
    exact ⟨(suffix_cons _ _).trans hp, (suffix_cons _ _).trans ht, hstar⟩
  · cases hr.symm.trans h
    have hps := (suffix_cons _ _).trans hp
    exact ⟨hps, ht, fun _ _ heq => by cases heq; exact ⟨hps, ht⟩⟩
  · cases hr.symm.trans h
    obtain ⟨hps, hm⟩ := hstar ps (b :: m) rfl
    have hm := (suffix_cons _ _).trans hm
    exact ⟨hps, hm, fun _ _ heq => by cases heq; exact ⟨hps, hm⟩⟩
  · cases hr.symm.trans h

theorem since_step (h : globStep p t ts star = some pos) (hs : Since (p, t :: ts, star)) :
    Since pos := by
  obtain ⟨a, ps, rfl, ha, hr⟩ | ⟨ps, rfl, -, hr⟩ | ⟨-, ⟨ps, b, m, rfl, hr⟩ | ⟨-, hr⟩⟩ :=
    globStep_cases p t ts star
  · cases hr.symm.trans h
    intro ps₀ m hstar
    obtain ⟨q, u, rfl, rfl, hqu⟩ := hs ps₀ m hstar
    exact ⟨q ++ [a], u ++ [t], by simp, by simp, rel_append hqu (.cons ha .nil)⟩
  · cases hr.symm.trans h
    intro ps₀ m hstar
    cases hstar
    exact ⟨[], [], rfl, rfl, .nil⟩
  · cases hr.symm.trans h
    intro ps₀ m₀ hstar
    cases hstar
    exact ⟨[], [], rfl, rfl, .nil⟩
  · cases hr.symm.trans h

/-- **The last `*` is enough.** A turn does not lose a reading: one in which an earlier `*` takes
more is one in which the last one does. -/
theorem hopeful_step (hs : Since (p, t :: ts, star)) (hp : Hopeful (p, t :: ts, star)) :
    ∃ pos, globStep p t ts star = some pos ∧ Hopeful pos := by
  obtain ⟨a, ps, rfl, ha, hr⟩ | ⟨ps, rfl, ht, hr⟩ | ⟨hno, ⟨ps, b, m, rfl, hr⟩ | ⟨hno', hr⟩⟩ :=
    globStep_cases p t ts star
  · refine ⟨_, hr, hp.imp (fun hm => ?_) id⟩
    cases hm with
    | letter _ hm => exact hm
    | star hhead => exact absurd (ha.resolve_left (by decide)) fun h => hhead (h ▸ rfl)
  · refine ⟨_, hr, ?_⟩
    obtain ⟨r, hsuf, hm⟩ : ∃ r, r <:+ t :: ts ∧ Reads ps r := by
      have hstar : ∀ {x : Bytes}, x <:+ t :: ts → Reads (42 :: ps) x →
          ∃ r, r <:+ t :: ts ∧ Reads ps r := by
        intro x hx hm
        cases hm with
        | letter _ hm => exact ⟨_, (suffix_cons _ _).trans hx, hm⟩
        | star _ hr hm => exact ⟨_, hr.trans hx, hm⟩
      rcases hp with hm | ⟨ps₀, m, b, r, rfl, hsuf, hm⟩
      · exact hstar suffix_rfl hm
      · obtain ⟨q, u, rfl, hbm, hqu⟩ := hs ps₀ (b :: m) rfl
        obtain ⟨x, hx, hm⟩ := reads_append hqu (hbm ▸ hsuf.trans (suffix_cons _ _)) hm
        exact hstar hx hm
    rcases suffix_cons_iff.1 hsuf with rfl | hsuf
    · exact .inl hm
    · exact .inr ⟨ps, ts, t, r, rfl, hsuf, hm⟩
  · refine ⟨_, hr, ?_⟩
    rcases hp with hm | ⟨ps, m, b, r, hstar, hsuf, hm⟩
    · exact absurd hm hno
    · cases hstar
      cases m with
      | nil => exact .inl (suffix_nil.1 hsuf ▸ hm)
      | cons c m =>
        rcases suffix_cons_iff.1 hsuf with rfl | hsuf
        · exact .inl hm
        · exact .inr ⟨ps, m, c, r, rfl, hsuf, hm⟩
  · rcases hp with hm | ⟨ps, m, b, r, hstar, -, -⟩
    · exact absurd hm hno
    · exact absurd hstar (hno' ps b m)

theorem turns_step {pattern text : Bytes} (h : globStep p t ts star = some pos)
    (hw : Within pattern text (p, t :: ts, star)) (hs : Since (p, t :: ts, star)) :
    pos.turns pattern.length < GlobPos.turns pattern.length (p, t :: ts, star) := by
  obtain ⟨a, ps, rfl, ha, hr⟩ | ⟨ps, rfl, -, hr⟩ | ⟨-, ⟨ps, b, m, rfl, hr⟩ | ⟨-, hr⟩⟩ :=
    globStep_cases p t ts star
  · cases hr.symm.trans h
    cases star with
    | none =>
      simp only [GlobPos.turns, map_none, getD_none, length_cons, Nat.succ_mul]
      omega
    | some s => simp [GlobPos.turns]
  · cases hr.symm.trans h
    cases star with
    | none => simp [GlobPos.turns]
    | some s =>
      obtain ⟨q, u, -, hm, -⟩ := hs s.1 s.2 rfl
      have hle : (t :: ts).length ≤ s.2.length := by rw [hm, length_append]; omega
      have := Nat.mul_le_mul_right (pattern.length + 1) hle
      simp only [GlobPos.turns, map_some, getD_some, length_cons] at this ⊢
      omega
  · cases hr.symm.trans h
    have := (hw.2.2 ps (b :: m) rfl).1.length_le
    simp only [GlobPos.turns, map_some, getD_some, length_cons, Nat.succ_mul]
    omega
  · cases hr.symm.trans h

end Step

/-! ## The loop -/

theorem globLoop_sound {fuel : Nat} {pos : GlobPos} (h : globLoop fuel pos = true) :
    Hopeful pos := by
  induction fuel generalizing pos with
  | zero =>
    obtain ⟨p, _ | ⟨t, ts⟩, star⟩ := pos
    · exact .inl (reads_nil_right.2 (by simpa [globLoop] using h))
    · cases h
  | succ fuel ih =>
    obtain ⟨p, _ | ⟨t, ts⟩, star⟩ := pos
    · exact .inl (reads_nil_right.2 (by simpa [globLoop] using h))
    · rw [globLoop] at h
      cases hstep : globStep p t ts star with
      | none => rw [hstep] at h; cases h
      | some pos => rw [hstep] at h; exact hopeful_of_step hstep (ih h)

theorem globLoop_nil {fuel : Nat} {p : Bytes} {star : Option (Bytes × Bytes)}
    (hs : Since (p, [], star)) (hp : Hopeful (p, [], star)) :
    globLoop fuel (p, [], star) = true := by
  have hm : Reads p [] := by
    rcases hp with hm | ⟨ps, m, b, r, rfl, hsuf, hm⟩
    · exact hm
    · obtain ⟨q, u, rfl, hbm, hqu⟩ := hs ps (b :: m) rfl
      obtain ⟨s, hs, hm⟩ := reads_append hqu (hbm ▸ hsuf.trans (suffix_cons _ _)) hm
      exact suffix_nil.1 hs ▸ hm
  cases fuel <;> simpa [globLoop] using reads_nil_right.1 hm

theorem globLoop_complete {pattern text : Bytes} {fuel : Nat} {pos : GlobPos}
    (hw : Within pattern text pos) (hs : Since pos) (hp : Hopeful pos)
    (hfuel : pos.turns pattern.length ≤ fuel) : globLoop fuel pos = true := by
  induction fuel generalizing pos with
  | zero =>
    obtain ⟨p, _ | ⟨t, ts⟩, star⟩ := pos
    · exact globLoop_nil hs hp
    · obtain ⟨pos, hstep, -⟩ := hopeful_step hs hp
      exact absurd (turns_step hstep hw hs) (by omega)
  | succ fuel ih =>
    obtain ⟨p, _ | ⟨t, ts⟩, star⟩ := pos
    · exact globLoop_nil hs hp
    · obtain ⟨pos, hstep, hp'⟩ := hopeful_step hs hp
      have hlt := turns_step hstep hw hs
      rw [globLoop, hstep]
      exact ih (within_step hstep hw) (since_step hstep hs) hp' (by omega)

/-! ## `glob_match` -/

/-- `glob_match` accepts what is read. -/
theorem globMatch_iff_reads (pattern text : Bytes) :
    globMatch pattern text = true ↔ Reads pattern text := by
  constructor
  · intro h
    rcases globLoop_sound h with hm | ⟨_, _, _, _, h, _⟩
    · exact hm
    · cases h
  · intro hm
    have hsince : Since (pattern, text, none) := fun _ _ h => by cases h
    have hwithin : Within pattern text (pattern, text, none) :=
      ⟨suffix_rfl, suffix_rfl, fun _ _ h => by cases h⟩
    refine globLoop_complete hwithin hsince (.inl hm) ?_
    have h₁ := Nat.mul_le_mul_left text.length
      (show pattern.length + 1 ≤ text.length + pattern.length + 2 by omega)
    simp only [GlobPos.turns, map_none, getD_none, Nat.succ_mul]
    omega

/-- **`glob_match` is glob matching, up to stars in the text.** What it accepts is a match. Its
answer is right if and only if the text is no match or is one in which every `*` of the pattern that
begins at a `*` of the text stands for just that letter; so it is if the pattern or the text has no
`*`. -/
theorem globMatch_matches (pattern text : Bytes) :
    (globMatch pattern text = true → GlobMatches pattern text) ∧
      ((globMatch pattern text = true ↔ GlobMatches pattern text) ↔
        (GlobMatches pattern text → Reads pattern text)) ∧
      ((42 ∈ pattern → 42 ∉ text) →
        (globMatch pattern text = true ↔ GlobMatches pattern text)) := by
  rw [globMatch_iff_reads]
  refine ⟨Reads.matches, ⟨Iff.mpr, fun h => ⟨Reads.matches, h⟩⟩, fun hstar => ?_⟩
  exact ⟨Reads.matches, reads_of_matches hstar⟩

/-- A `*` in the text that no `*` of the pattern begins at. -/
theorem globMatch_matches_path : globMatch (ofString "/*") (ofString "/a*b") = true := by
  have hreads : Reads (ofString "/*") (ofString "/a*b") :=
    .letter (.inr rfl) (.star (by decide) (nil_suffix ..) .nil)
  exact ((globMatch_matches _ _).2.1.2 fun _ => hreads).2 hreads.matches

/-- The `*` in front of `b` is taken for the `*` of the text, and then nothing stands for `a`. -/
theorem globMatch_star_in_text :
    ¬ ∀ pattern text : Bytes, globMatch pattern text = true ↔ GlobMatches pattern text := by
  intro h
  have hm : GlobMatches (ofString "*b") (ofString "*ab") :=
    ⟨[ofString "*a", ofString "b"],
      .cons stands_many (.cons (stands_singleton (.inr rfl)) .nil), by decide⟩
  exact absurd ((h _ _).2 hm) (by decide)

end Askr.Rcache
