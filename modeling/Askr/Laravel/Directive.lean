import Askr.Laravel.Models

/-!
# The directive that the middleware writes

`CacheResponse` writes the lifetimes that are positive and then the tags, and
`parse_cache_directive` looks for the parameters anywhere in the text. What it finds is the
parameter that was written, if there was one; else it is whatever the tags look like
(`swr_directive`, `staleIfError_directive`, `sie_directive`). So the directive is read back as it
was meant exactly when the tags read as no parameter and none of them has white space at an end
(`directive_read_back_iff`).
-/

namespace Askr.Laravel

open Bytes Policy List

/-- The directive of a response: what `handle` puts in the header. -/
def Lifetimes.directive (l : Lifetimes) (tags : List Bytes) : Bytes :=
  l.text ++ if tags = [] then [] else ofString ", tags=" ++ [44].intercalate tags

/-! ## Where a parameter is found -/

/-- No `x` is last or in front of a `y`: nothing that starts with `x` and `y` starts here. -/
def clearOf (x y : UInt8) : Bytes → Bool
  | [] => true
  | [b] => b ≠ x
  | b :: c :: r => (b ≠ x || c ≠ y) && clearOf x y (c :: r)

variable {x y : UInt8}

theorem clearOf_append {s t : Bytes} (hs : clearOf x y s = true)
    (ht : clearOf x y t = true) : clearOf x y (s ++ t) = true := by
  fun_induction clearOf x y s with
  | case1 => exact ht
  | case2 b =>
    cases t with
    | nil => exact hs
    | cons c t => simp [clearOf, of_decide_eq_true hs, ht]
  | case3 b c r ih =>
    obtain ⟨hb, hr⟩ := Bool.and_eq_true_iff.1 hs
    exact Bool.and_eq_true_iff.2 ⟨hb, ih hr⟩

theorem clearOf_of_notMem {s : Bytes} (h : x ∉ s) : clearOf x y s = true := by
  fun_induction clearOf x y s with
  | case1 => rfl
  | case2 b => exact decide_eq_true fun hb => h (hb ▸ .head _)
  | case3 b c r ih =>
    have hb : b ≠ x := fun hb => h (hb ▸ .head _)
    simp [hb, ih fun hm => h (.tail _ hm)]

theorem cut_append_of_clearOf {zs s : Bytes} (hs : clearOf x y s = true) (r : Bytes) :
    cut (x :: y :: zs) (s ++ r) =
      (cut (x :: y :: zs) r).map fun (front, rest) => (s ++ front, rest) := by
  fun_induction clearOf x y s with
  | case1 => simp
  | case2 b =>
    have hb : b ≠ x := of_decide_eq_true hs
    rw [singleton_append, cut, if_neg (by simp [hb.symm])]
    rfl
  | case3 b c t ih =>
    obtain ⟨hb, ht⟩ := Bool.and_eq_true_iff.1 hs
    have hno : ¬ (x :: y :: zs).isPrefixOf (b :: (c :: t ++ r)) := by
      simp only [cons_append, isPrefixOf_cons_cons, Bool.and_eq_true, beq_iff_eq, not_and]
      rintro rfl rfl
      simp at hb
    rw [cons_append, cut, if_neg hno, ih ht, Option.map_map]
    rfl

theorem directiveSecs_append {zs s : Bytes} (hs : clearOf x y s = true) (r : Bytes) :
    directiveSecs (s ++ r) (x :: y :: zs) = directiveSecs r (x :: y :: zs) := by
  rw [directiveSecs, directiveSecs, cut_append_of_clearOf hs, Option.bind_map]
  rfl

theorem directiveSecs_self {name : Bytes} (hname : name ≠ []) {n : Nat} (hn : n < U64) {r : Bytes}
    (hr : r = [] ∨ ∃ r', r = 44 :: r') : directiveSecs (name ++ (natBytes n ++ r)) name = n := by
  have hcut : cut name (name ++ (natBytes n ++ r)) = some ([], natBytes n ++ r) := by
    obtain ⟨x, name, rfl⟩ := exists_cons_of_ne_nil hname
    rw [cons_append, cut, if_pos (by simp)]
    simp
  have htake : (natBytes n ++ r).takeWhile (fun b => !isSeparator b) = natBytes n := by
    rw [takeWhile_append_of_pos fun b hb => by simp [isSeparator_of_mem_natBytes hb]]
    rcases hr with rfl | ⟨r', rfl⟩ <;> simp [isSeparator]
  rw [directiveSecs, hcut, Option.bind_some]
  simp only [htake, parseU64_trim_natBytes hn, Option.getD_some]

/-! ## What is found in a directive -/

/-- The parameters of a directive behind the lifetime, and the tags. -/
def swrText (n : Nat) : Bytes := if 0 < n then ofString ", swr=" ++ natBytes n else []
def sieText (n : Nat) : Bytes := if 0 < n then ofString ", stale-if-error=" ++ natBytes n else []
def tagsText (tags : List Bytes) : Bytes :=
  if tags = [] then [] else ofString ", tags=" ++ [44].intercalate tags

theorem digits_clear {x : UInt8} (hx : isDigit x = false) (y : UInt8) (n : Nat) :
    clearOf x y (natBytes n) = true :=
  clearOf_of_notMem fun h => by simp [isDigit_of_mem_natBytes h] at hx

theorem swrText_clear {y : UInt8} (h : clearOf 115 y (ofString ", swr=") = true) (n : Nat) :
    clearOf 115 y (swrText n) = true := by
  rw [swrText]
  split
  · exact clearOf_append h (digits_clear (by decide) y n)
  · rfl

theorem sieText_clear {y : UInt8} (h : clearOf 115 y (ofString ", stale-if-error=") = true)
    (n : Nat) : clearOf 115 y (sieText n) = true := by
  rw [sieText]
  split
  · exact clearOf_append h (digits_clear (by decide) y n)
  · rfl

theorem directiveSecs_tagsText {y : UInt8} (h : clearOf 115 y (ofString ", tags=") = true)
    (zs : Bytes) (tags : List Bytes) : directiveSecs (tagsText tags) (115 :: y :: zs) =
      directiveSecs ([44].intercalate tags) (115 :: y :: zs) := by
  rw [tagsText]
  split
  · rename_i hnil
    rw [hnil]
    rfl
  · exact directiveSecs_append h _

theorem tagsText_cases (tags : List Bytes) : tagsText tags = [] ∨ ∃ r, tagsText tags = 44 :: r := by
  rw [tagsText]
  split
  · exact .inl rfl
  · exact .inr ⟨_, rfl⟩

theorem sieText_append_cases (n : Nat) (tags : List Bytes) :
    sieText n ++ tagsText tags = [] ∨ ∃ r, sieText n ++ tagsText tags = 44 :: r := by
  rw [sieText]
  split
  · exact .inr ⟨_, rfl⟩
  · exact tagsText_cases tags

section

variable {ttl swr sie : Nat} {tags : List Bytes}

theorem swr_directive (hn : swr < U64) :
    directiveSecs (natBytes ttl ++ swrText swr ++ sieText sie ++ tagsText tags) (ofString "swr=") =
      if 0 < swr then swr else directiveSecs ([44].intercalate tags) (ofString "swr=") := by
  have hneedle : ofString "swr=" = 115 :: 119 :: [114, 61] := by decide
  split
  · rename_i hpos
    have hcut : ofString ", swr=" = [44, 32] ++ ofString "swr=" := by decide
    have hfront : clearOf 115 119 (natBytes ttl ++ [44, 32]) = true :=
      clearOf_append (digits_clear (by decide) _ _) (by decide)
    rw [swrText, if_pos hpos, hcut]
    calc directiveSecs (natBytes ttl ++ ([44, 32] ++ ofString "swr=" ++ natBytes swr) ++
          sieText sie ++ tagsText tags) (ofString "swr=")
        = directiveSecs ((natBytes ttl ++ [44, 32]) ++ (ofString "swr=" ++ (natBytes swr ++
            (sieText sie ++ tagsText tags)))) (ofString "swr=") := by simp only [append_assoc]
      _ = directiveSecs (ofString "swr=" ++ (natBytes swr ++ (sieText sie ++ tagsText tags)))
            (ofString "swr=") := directiveSecs_append hfront _
      _ = swr := directiveSecs_self (by decide) hn (sieText_append_cases sie tags)
  · rename_i hzero
    have hfront : clearOf 115 119 (natBytes ttl ++ swrText swr ++ sieText sie) = true := by
      rw [swrText, if_neg hzero, append_nil]
      exact clearOf_append (digits_clear (by decide) _ _) (sieText_clear (by decide) sie)
    rw [hneedle, directiveSecs_append hfront, directiveSecs_tagsText (by decide)]

theorem staleIfError_directive (hn : sie < U64) :
    directiveSecs (natBytes ttl ++ swrText swr ++ sieText sie ++ tagsText tags)
        (ofString "stale-if-error=") = if 0 < sie then sie
      else directiveSecs ([44].intercalate tags) (ofString "stale-if-error=") := by
  have hneedle : ofString "stale-if-error=" = 115 :: 116 :: ofString "ale-if-error=" := by decide
  have hfront : clearOf 115 116 (natBytes ttl ++ swrText swr) = true :=
    clearOf_append (digits_clear (by decide) _ _) (swrText_clear (by decide) swr)
  split
  · rename_i hpos
    have hcut : ofString ", stale-if-error=" = [44, 32] ++ ofString "stale-if-error=" := by decide
    rw [sieText, if_pos hpos, hcut]
    calc directiveSecs (natBytes ttl ++ swrText swr ++ ([44, 32] ++ ofString "stale-if-error=" ++
          natBytes sie) ++ tagsText tags) (ofString "stale-if-error=")
        = directiveSecs ((natBytes ttl ++ swrText swr ++ [44, 32]) ++ (ofString "stale-if-error=" ++
            (natBytes sie ++ tagsText tags))) (ofString "stale-if-error=") := by
          simp only [append_assoc]
      _ = directiveSecs (ofString "stale-if-error=" ++ (natBytes sie ++ tagsText tags))
            (ofString "stale-if-error=") :=
          hneedle ▸ directiveSecs_append (clearOf_append hfront (by decide)) _
      _ = sie := directiveSecs_self (by decide) hn (tagsText_cases tags)
  · rename_i hzero
    rw [sieText, if_neg hzero, append_nil, hneedle, directiveSecs_append hfront,
      directiveSecs_tagsText (by decide)]

theorem sie_directive :
    directiveSecs (natBytes ttl ++ swrText swr ++ sieText sie ++ tagsText tags) (ofString "sie=") =
      directiveSecs ([44].intercalate tags) (ofString "sie=") := by
  have hneedle : ofString "sie=" = 115 :: 105 :: [101, 61] := by decide
  have hfront : clearOf 115 105 (natBytes ttl ++ swrText swr ++ sieText sie) = true :=
    clearOf_append (clearOf_append (digits_clear (by decide) _ _) (swrText_clear (by decide) swr))
      (sieText_clear (by decide) sie)
  rw [hneedle, directiveSecs_append hfront, directiveSecs_tagsText (by decide)]

end

/-! ## Reading it back -/

/-- A tag as one may be given: not empty and without a separator. -/
def PlainTag (t : Bytes) : Prop := t ≠ [] ∧ ∀ b ∈ t, isSeparator b = false

instance (t : Bytes) : Decidable (PlainTag t) := inferInstanceAs (Decidable (_ ∧ _))

theorem pieces_of_plainTag {t : Bytes} (ht : PlainTag t) :
    pieces t = if trim t = [] then [] else [trim t] := by
  rw [pieces, splitOnP_eq_singleton ht.2]
  by_cases h : trim t = [] <;> simp [h]

theorem flatMap_pieces_eq_iff {tags : List Bytes} (htags : ∀ t ∈ tags, PlainTag t) :
    tags.flatMap pieces = tags ↔ ∀ t ∈ tags, trim t = t := by
  have hle : ∀ l : List Bytes, (∀ t ∈ l, PlainTag t) → (l.flatMap pieces).length ≤ l.length := by
    intro l hl
    induction l with
    | nil => exact Nat.le_refl _
    | cons t l ih =>
      have := ih fun t ht => hl t (.tail _ ht)
      rw [flatMap_cons, length_append, pieces_of_plainTag (hl t (.head _)),
        length_cons]
      split
      · rw [length_nil]
        omega
      · rw [length_singleton]
        omega
  induction tags with
  | nil => simp
  | cons t tags ih =>
    have ht := htags t (.head _)
    have htags' : ∀ t ∈ tags, PlainTag t := fun t h => htags t (.tail _ h)
    rw [flatMap_cons, forall_mem_cons, pieces_of_plainTag ht]
    refine Iff.trans ?_ (and_congr_right' (ih htags'))
    split
    · rename_i hnil
      refine iff_of_false (fun h => ?_) fun h => ht.1 (h.1.symm.trans hnil)
      have := hle tags htags'
      rw [nil_append] at h
      rw [h, length_cons] at this
      omega
    · simp

theorem Lifetimes.directive_eq (l : Lifetimes) (hswr : 0 ≤ l.swr.val)
    (hsie : 0 ≤ l.staleIfError.val) (tags : List Bytes) :
    l.directive tags = natBytes (max 0 l.ttl.val).toNat ++ swrText l.swr.val.toNat ++
      sieText l.staleIfError.val.toNat ++ tagsText tags := by
  obtain ⟨n, hn⟩ := Int.eq_ofNat_of_zero_le (Int.le_max_left 0 l.ttl.val)
  obtain ⟨m, hm⟩ := Int.eq_ofNat_of_zero_le hswr
  obtain ⟨k, hk⟩ := Int.eq_ofNat_of_zero_le hsie
  simp only [Lifetimes.directive, Lifetimes.text, swrText, sieText, tagsText, hn, hm, hk,
    Int.toNat_natCast, gt_iff_lt, Int.natCast_pos, append_assoc]
  rfl

theorem PhpInt.toNat_lt (n : PhpInt) : n.val.toNat < U64 := by
  have := n.inI64.2
  rw [U64]
  omega

/-- **When a directive is read back as it was written.** Exactly when the tags have no white space
at an end, and do not read as a parameter that was not written or as a longer error window. -/
theorem directive_read_back_iff (l : Lifetimes) (httl : 0 ≤ l.ttl.val) (hswr : 0 ≤ l.swr.val)
    (hsie : 0 ≤ l.staleIfError.val) (tags : List Bytes) (htags : ∀ t ∈ tags, PlainTag t) :
    parseCacheDirective (l.directive tags) = some
        { ttl := l.ttl.val.toNat, swr := l.swr.val.toNat, sie := l.staleIfError.val.toNat, tags } ↔
      (∀ t ∈ tags, trim t = t) ∧
      (l.swr.val = 0 → directiveSecs ([44].intercalate tags) (ofString "swr=") = 0) ∧
      (l.staleIfError.val = 0 →
        directiveSecs ([44].intercalate tags) (ofString "stale-if-error=") = 0) ∧
      directiveSecs ([44].intercalate tags) (ofString "sie=") ≤ l.staleIfError.val.toNat := by
  have hparse := parseCacheDirective_header tags l
  simp only at hparse
  rw [← Lifetimes.directive, l.directive_eq hswr hsie, swr_directive l.swr.toNat_lt,
    staleIfError_directive l.staleIfError.toNat_lt, sie_directive] at hparse
  rw [l.directive_eq hswr hsie, hparse, Option.some.injEq, Directive.mk.injEq,
    flatMap_pieces_eq_iff htags, Int.max_eq_right httl]
  constructor
  · rintro ⟨-, h₁, h₂, h₃⟩
    refine ⟨h₃, fun h => ?_, fun h => ?_, ?_⟩
    · rwa [h, if_neg (by decide)] at h₁
    · rw [h, if_neg (by decide)] at h₂
      have : Int.toNat 0 = 0 := rfl
      omega
    · omega
  · rintro ⟨h₁, h₂, h₃, h₄⟩
    refine ⟨rfl, ?_, ?_, h₁⟩
    · split
      · rfl
      · rw [h₂ (by omega)]
        omega
    · split
      · omega
      · rw [h₃ (by omega)]
        omega

theorem directive_read_back_posts :
    parseCacheDirective (hour.directive [ofString "posts:3", ofString "home"]) = some
      { ttl := 3600, swr := 0, sie := 0, tags := [ofString "posts:3", ofString "home"] } :=
  (directive_read_back_iff hour (by decide) (by decide) (by decide)
    [ofString "posts:3", ofString "home"] (by decide +kernel)).2
    ⟨by decide +kernel, by decide +kernel, by decide +kernel, by decide +kernel⟩

/-- A tag that looks like a parameter is one: the page is served stale for nine seconds. -/
theorem tag_reads_as_parameter :
    ¬ ∀ (l : Lifetimes), 0 ≤ l.ttl.val → 0 ≤ l.swr.val → 0 ≤ l.staleIfError.val →
      ∀ tags : List Bytes, (∀ t ∈ tags, PlainTag t) → parseCacheDirective (l.directive tags) = some
          { ttl := l.ttl.val.toNat, swr := l.swr.val.toNat, sie := l.staleIfError.val.toNat
            tags } := by
  intro h
  have hread := h hour (by decide) (by decide) (by decide) [ofString "swr=9"]
    (by decide +kernel)
  have hswr := congrArg (Option.map (·.swr)) hread
  exact absurd hswr (by decide +kernel)

end Askr.Laravel
