import Mathlib.Data.List.Basic
import Mathlib.Tactic.Common

/-!
# Byte strings

A Rust `&[u8]` and a Rust `&str` are both read here as the list of their bytes: a `str` is its UTF-8
encoding, so equality, order, splitting at an ASCII byte and ASCII case folding are the byte
operations. The one operation that looks at characters is `trim`, which strips Unicode white space
from both ends; `trimStart` and `trimEnd` recognise the UTF-8 encodings of those characters.

Integers print in decimal (`intBytes`) and parse as `i64` (`parseI64`); `parseI64_trim_intBytes` is
the round trip of a stored counter.
-/

abbrev Bytes := List UInt8

namespace Bytes

open List Nat

/-- The UTF-8 bytes of a literal. -/
def ofString (s : String) : Bytes := s.toList.flatMap String.utf8EncodeChar

theorem ofString_inj {s t : String} : ofString s = ofString t ↔ s = t := by
  refine ⟨fun h => String.toByteArray_inj.1 ?_, congrArg ofString⟩
  rw [← String.utf8Encode_toList, ← String.utf8Encode_toList]
  exact congrArg toByteArray h

/-! ## ASCII case -/

/-- `u8::to_ascii_lowercase`. -/
def lowerByte (b : UInt8) : UInt8 := if 65 ≤ b ∧ b ≤ 90 then b + 32 else b

/-- `to_ascii_lowercase` on a whole string. -/
def toAsciiLowercase (s : Bytes) : Bytes := s.map lowerByte

def eqIgnoreAsciiCase (a b : Bytes) : Bool := toAsciiLowercase a == toAsciiLowercase b

theorem lowerByte_lowerByte (b : UInt8) : lowerByte (lowerByte b) = lowerByte b := by
  by_cases h : 65 ≤ b ∧ b ≤ 90
  · have h' : ¬ (65 ≤ b + 32 ∧ b + 32 ≤ 90) := by
      simp only [UInt8.le_iff_toNat_le, UInt8.toNat_add, UInt8.reduceToNat] at h ⊢
      omega
    rw [lowerByte, lowerByte, if_pos h, if_neg h']
  · rw [lowerByte, lowerByte, if_neg h, if_neg h]

theorem eq_of_lowerByte {b c : UInt8} (hc : c < 97) (h : lowerByte b = c) : b = c := by
  rw [lowerByte] at h
  split at h
  · rename_i hb
    have h1 := UInt8.le_iff_toNat_le.1 hb.1
    have h2 := UInt8.le_iff_toNat_le.1 hb.2
    have h3 := UInt8.lt_iff_toNat_lt.1 hc
    have hsum := congrArg UInt8.toNat h
    rw [UInt8.toNat_add] at hsum
    simp only [UInt8.reduceToNat] at h1 h2 h3 hsum
    omega
  · exact h

@[simp] theorem eqIgnoreAsciiCase_self (a : Bytes) : eqIgnoreAsciiCase a a = true := by
  simp [eqIgnoreAsciiCase]

theorem eqIgnoreAsciiCase_lower (a b : Bytes) :
    eqIgnoreAsciiCase (toAsciiLowercase a) b = eqIgnoreAsciiCase a b := by
  simp [eqIgnoreAsciiCase, toAsciiLowercase, Function.comp_def, lowerByte_lowerByte]

/-! ## White space -/

/-- A one-byte white space character. -/
def isSpace1 (a : UInt8) : Bool := (9 ≤ a && a ≤ 13) || a == 32

/-- The two-byte encodings of white space: U+0085 and U+00A0. -/
def isSpace2 (a b : UInt8) : Bool := a == 0xC2 && (b == 0x85 || b == 0xA0)

/-- The three-byte encodings of white space: U+1680, U+2000 to U+200A, U+2028, U+2029, U+202F,
U+205F and U+3000. -/
def isSpace3 (a b c : UInt8) : Bool :=
  (a == 0xE1 && b == 0x9A && c == 0x80) ||
  (a == 0xE2 && b == 0x80 && ((0x80 ≤ c && c ≤ 0x8A) || c == 0xA8 || c == 0xA9 || c == 0xAF)) ||
  (a == 0xE2 && b == 0x81 && c == 0x9F) || (a == 0xE3 && b == 0x80 && c == 0x80)

section
variable (two : UInt8 → UInt8 → Bool) (three : UInt8 → UInt8 → UInt8 → Bool)

/-- White space is dropped from the front, where `two` and `three` recognise the longer encodings.
-/
def dropSpaces : Bytes → Bytes
  | [] => []
  | [a] => if isSpace1 a then [] else [a]
  | [a, b] => if isSpace1 a then dropSpaces [b] else if two a b then [] else [a, b]
  | a :: b :: c :: r =>
    if isSpace1 a then dropSpaces (b :: c :: r)
    else if two a b then dropSpaces (c :: r)
    else if three a b c then dropSpaces r
    else a :: b :: c :: r

end

def trimStart : Bytes → Bytes := dropSpaces isSpace2 isSpace3

/-- `trimEnd` on the reversed string. -/
def trimEndRev : Bytes → Bytes := dropSpaces (fun a b => isSpace2 b a) fun a b c => isSpace3 c b a

def trimEnd (s : Bytes) : Bytes := (trimEndRev s.reverse).reverse

def trim (s : Bytes) : Bytes := trimEnd (trimStart s)

section
variable {two : UInt8 → UInt8 → Bool} {three : UInt8 → UInt8 → UInt8 → Bool}

/-- What is kept when a white space character is dropped is kept when all of them are. -/
theorem dropSpaces_keeps {P : Bytes → Prop} (h1 : ∀ a r, isSpace1 a = true → P (a :: r) → P r)
    (h2 : ∀ a b r, two a b = true → P (a :: b :: r) → P r)
    (h3 : ∀ a b c r, three a b c = true → P (a :: b :: c :: r) → P r) {s : Bytes} (hs : P s) :
    P (dropSpaces two three s) := by
  fun_induction dropSpaces two three s with
  | case1 | case3 | case6 | case10 => exact hs
  | case2 a ha => exact h1 a [] ha hs
  | case4 a b ha ih => exact ih (h1 a [b] ha hs)
  | case5 a b _ hab => exact h2 a b [] hab hs
  | case7 a b c r ha ih => exact ih (h1 a _ ha hs)
  | case8 a b c r _ hab ih => exact ih (h2 a b _ hab hs)
  | case9 a b c r _ _ habc ih => exact ih (h3 a b c r habc hs)

theorem dropSpaces_suffix (s : Bytes) : dropSpaces two three s <:+ s :=
  dropSpaces_keeps (P := (· <:+ s)) (fun _ _ _ h => (suffix_cons _ _).trans h)
    (fun a b r _ h => (suffix_append [a, b] r).trans h)
    (fun a b c r _ h => (suffix_append [a, b, c] r).trans h) suffix_rfl

theorem isSpace1_of_dropSpaces {s r : Bytes} {a : UInt8} (h : dropSpaces two three s = a :: r) :
    isSpace1 a = false := by
  fun_induction dropSpaces two three s with
  | case1 | case2 | case5 => cases h
  | case3 | case6 | case10 => simp_all
  | case4 _ _ _ ih | case7 _ _ _ _ _ ih | case8 _ _ _ _ _ _ ih | case9 _ _ _ _ _ _ _ ih =>
    exact ih h

theorem dropSpaces_cons {a : UInt8} (h1 : isSpace1 a = false) (h2 : ∀ b, two a b = false)
    (h3 : ∀ b c, three a b c = false) (r : Bytes) : dropSpaces two three (a :: r) = a :: r := by
  rcases r with _ | ⟨b, _ | ⟨c, r⟩⟩ <;> simp [dropSpaces, h1, h2, h3]

theorem dropSpaces_dropSpaces (s : Bytes) :
    dropSpaces two three (dropSpaces two three s) = dropSpaces two three s := by
  fun_induction dropSpaces two three s with
  | case1 | case2 | case5 => rfl
  | case3 a h => simp [dropSpaces, h]
  | case4 _ _ _ ih | case7 _ _ _ _ _ ih | case8 _ _ _ _ _ _ ih | case9 _ _ _ _ _ _ _ ih => exact ih
  | case6 a b h1 h2 => simp [dropSpaces, h1, h2]
  | case10 a b c r h1 h2 h3 => simp [dropSpaces, h1, h2, h3]

theorem dropSpaces_of_prefix {s p : Bytes} (hs : dropSpaces two three s = s) (hp : p <+: s) :
    dropSpaces two three p = p := by
  obtain ⟨t, rfl⟩ := hp
  have hnot : ∀ a r, p ++ t = a :: r → isSpace1 a = false ∧ (∀ b r', r = b :: r' →
      two a b = false ∧ ∀ c r'', r' = c :: r'' → three a b c = false) := by
    intro a r hr
    rw [hr] at hs
    have hlen : ∀ q : Bytes, q.length < (a :: r).length → dropSpaces two three q ≠ a :: r :=
      fun q hq he => by
        have hle : (dropSpaces two three q).length ≤ q.length := (dropSpaces_suffix q).length_le
        rw [he] at hle
        omega
    rcases r with _ | ⟨b, _ | ⟨c, r⟩⟩
    · simpa [dropSpaces] using hs
    · by_cases h1 : isSpace1 a
      · exact absurd (by simpa [dropSpaces, h1] using hs) (hlen [b] (by simp))
      · simpa [dropSpaces, h1] using hs
    · by_cases h1 : isSpace1 a
      · exact absurd (by simpa [dropSpaces, h1] using hs) (hlen (b :: c :: r) (by simp))
      by_cases h2 : two a b
      · exact absurd (by simpa [dropSpaces, h1, h2] using hs) (hlen (c :: r) (by simp))
      by_cases h3 : three a b c
      · exact absurd (by simpa [dropSpaces, h1, h2, h3] using hs) (hlen r (by simp; omega))
      simp [h1, h2, h3]
  rcases p with _ | ⟨a, _ | ⟨b, _ | ⟨c, p⟩⟩⟩
  · rfl
  · simp [dropSpaces, (hnot a _ rfl).1]
  · simp [dropSpaces, (hnot a _ rfl).1, ((hnot a _ rfl).2 b _ rfl).1]
  · simp [dropSpaces, (hnot a _ rfl).1, ((hnot a _ rfl).2 b _ rfl).1,
      ((hnot a _ rfl).2 b _ rfl).2 c _ rfl]

end

theorem ne_append_of_trim {s : Bytes} {a : UInt8} (h : trim s = s) (ha : isSpace1 a = true)
    (p : Bytes) : s ≠ p ++ [a] := by
  rintro rfl
  rw [trim, trimEnd, reverse_eq_iff, reverse_concat] at h
  rw [isSpace1_of_dropSpaces h] at ha
  cases ha

theorem trim_cons {a : UInt8} (ha : isSpace1 a = true) (s : Bytes) : trim (a :: s) = trim s := by
  have h : trimStart (a :: s) = trimStart s := by
    rcases s with _ | ⟨b, _ | ⟨c, r⟩⟩ <;> simp [trimStart, dropSpaces, ha]
  rw [trim, trim, h]

theorem mem_of_mem_trim {s : Bytes} {b : UInt8} (h : b ∈ trim s) : b ∈ s := by
  rw [trim, trimEnd, mem_reverse] at h
  have h' := (dropSpaces_suffix _).subset h
  rw [mem_reverse] at h'
  exact (dropSpaces_suffix s).subset h'

/-- The bytes `trim` looks for at either end: an ASCII space or the first or last byte of a longer
white space character. -/
def isEdgeSpace (a : UInt8) : Bool := isSpace1 a || 0x80 ≤ a

theorem beq_of_isEdgeSpace {a x : UInt8} (h : isEdgeSpace a = false) (hx : 0x80 ≤ x) :
    (a == x) = false := by
  refine beq_false_of_ne ?_
  rintro rfl
  simp [isEdgeSpace, hx] at h

theorem trim_eq_self {s : Bytes} (h : ∀ b ∈ s, isEdgeSpace b = false) : trim s = s := by
  have h1 : ∀ b ∈ s, isSpace1 b = false ∧ ¬ 0x80 ≤ b :=
    fun b hb => by simpa [isEdgeSpace] using h b hb
  have hs : trimStart s = s := by
    cases s with
    | nil => rfl
    | cons a r =>
      have ha := h a (.head _)
      exact dropSpaces_cons (h1 a (.head _)).1 (by simp [isSpace2, beq_of_isEdgeSpace ha])
        (by simp [isSpace3, beq_of_isEdgeSpace ha]) r
  rw [trim, hs, trimEnd]
  cases hr : s.reverse with
  | nil => rw [reverse_eq_nil_iff] at hr; subst hr; rfl
  | cons a r =>
    have hmem : a ∈ s := mem_reverse.1 (hr ▸ mem_cons_self)
    have ha := h a hmem
    rw [trimEndRev, dropSpaces_cons (h1 a hmem).1 (by simp [isSpace2, beq_of_isEdgeSpace ha])
      (by simp [isSpace3, beq_of_isEdgeSpace ha, (h1 a hmem).2]), ← hr, reverse_reverse]

@[simp] theorem trim_trim (s : Bytes) : trim (trim s) = trim s := by
  have hp : trim s <+: trimStart s := by
    rw [trim, trimEnd]
    exact reverse_suffix.1 (by rw [reverse_reverse]; exact dropSpaces_suffix _)
  have hstart : trimStart (trim s) = trim s :=
    dropSpaces_of_prefix (dropSpaces_dropSpaces s) hp
  conv_lhs => rw [trim, hstart]
  rw [trim, trimEnd, trimEnd, reverse_reverse, trimEndRev, dropSpaces_dropSpaces]

/-! ## UTF-8 -/

/-- A continuation byte in the given range. -/
def isCont (lo hi b : UInt8) : Bool := lo ≤ b && b ≤ hi

/-- `str::from_utf8(..).is_ok()`. -/
def isUtf8 : Bytes → Bool
  | [] => true
  | a :: r =>
    if a < 0x80 then isUtf8 r else
    match r with
    | [] => false
    | b :: r =>
      if 0xC2 ≤ a && a ≤ 0xDF then isCont 0x80 0xBF b && isUtf8 r else
      match r with
      | [] => false
      | c :: r =>
        if 0xE0 ≤ a && a ≤ 0xEF then
          isCont (if a = 0xE0 then 0xA0 else 0x80) (if a = 0xED then 0x9F else 0xBF) b &&
            isCont 0x80 0xBF c && isUtf8 r
        else
        match r with
        | [] => false
        | d :: r =>
          0xF0 ≤ a && a ≤ 0xF4 &&
            isCont (if a = 0xF0 then 0x90 else 0x80) (if a = 0xF4 then 0x8F else 0xBF) b &&
            isCont 0x80 0xBF c && isCont 0x80 0xBF d && isUtf8 r

theorem isUtf8_of_ascii {s : Bytes} (h : ∀ b ∈ s, b < 0x80) : isUtf8 s = true := by
  induction s with
  | nil => rfl
  | cons a s ih =>
    rw [isUtf8.eq_def]
    simp only [if_pos (h a (.head _))]
    exact ih fun b hb => h b (.tail _ hb)

/-- U+FFFD, which stands for what is not UTF-8. -/
def REPLACEMENT : Bytes := [0xEF, 0xBF, 0xBD]

/-- `String::from_utf8_lossy`: each piece that begins like a character and does not go on like one
is replaced, as far as it went. -/
def fromUtf8Lossy : Bytes → Bytes
  | [] => []
  | a :: r =>
    if a < 0x80 then a :: fromUtf8Lossy r else
    if 0xC2 ≤ a && a ≤ 0xDF then
      match r with
      | [] => REPLACEMENT
      | b :: r =>
        if isCont 0x80 0xBF b then a :: b :: fromUtf8Lossy r
        else REPLACEMENT ++ fromUtf8Lossy (b :: r)
    else if 0xE0 ≤ a && a ≤ 0xEF then
      match r with
      | [] => REPLACEMENT
      | b :: r =>
        if isCont (if a = 0xE0 then 0xA0 else 0x80) (if a = 0xED then 0x9F else 0xBF) b then
          match r with
          | [] => REPLACEMENT
          | c :: r =>
            if isCont 0x80 0xBF c then a :: b :: c :: fromUtf8Lossy r
            else REPLACEMENT ++ fromUtf8Lossy (c :: r)
        else REPLACEMENT ++ fromUtf8Lossy (b :: r)
    else if 0xF0 ≤ a && a ≤ 0xF4 then
      match r with
      | [] => REPLACEMENT
      | b :: r =>
        if isCont (if a = 0xF0 then 0x90 else 0x80) (if a = 0xF4 then 0x8F else 0xBF) b then
          match r with
          | [] => REPLACEMENT
          | c :: r =>
            if isCont 0x80 0xBF c then
              match r with
              | [] => REPLACEMENT
              | d :: r =>
                if isCont 0x80 0xBF d then a :: b :: c :: d :: fromUtf8Lossy r
                else REPLACEMENT ++ fromUtf8Lossy (d :: r)
            else REPLACEMENT ++ fromUtf8Lossy (c :: r)
        else REPLACEMENT ++ fromUtf8Lossy (b :: r)
    else REPLACEMENT ++ fromUtf8Lossy r

theorem fromUtf8Lossy_of_isUtf8 {s : Bytes} (h : isUtf8 s = true) : fromUtf8Lossy s = s := by
  fun_induction isUtf8 s with
  | case1 => rfl
  | case2 a r ha ih => rw [fromUtf8Lossy.eq_def]; simp [ha, ih h]
  | case3 a ha => cases h
  | case4 a ha b r hb ih =>
    simp only [Bool.and_eq_true] at h
    rw [fromUtf8Lossy.eq_def]
    simp [ha, hb, h.1, ih h.2]
  | case5 a ha b hb => cases h
  | case6 a ha b hb c r hc ih =>
    simp only [Bool.and_eq_true] at h
    rw [fromUtf8Lossy.eq_def]
    simp [ha, hb, hc, h.1.1, h.1.2, ih h.2]
  | case7 => cases h
  | case8 a ha b hb c hc d r ih =>
    simp only [Bool.and_eq_true] at h
    rw [fromUtf8Lossy.eq_def]
    simp [ha, hb, hc, h, ih h.2]

theorem fromUtf8Lossy_append {p : Bytes} (hp : ∀ b ∈ p, b < 0x80) (s : Bytes) :
    fromUtf8Lossy (p ++ s) = p ++ fromUtf8Lossy s := by
  induction p with
  | nil => rfl
  | cons a p ih =>
    rw [cons_append, fromUtf8Lossy.eq_def]
    simp only [if_pos (hp a (.head _)), ih fun b hb => hp b (.tail _ hb), cons_append]

theorem isCont_of_narrow {lo hi b : UInt8} (hlo : 0x80 ≤ lo) (hhi : hi ≤ 0xBF)
    (hb : isCont 0x80 0xBF b = false) : isCont lo hi b = false := by
  simp only [isCont, Bool.and_eq_false_iff, decide_eq_false_iff_not] at hb ⊢
  exact hb.imp (fun h h' => h (UInt8.le_trans hlo h')) fun h h' => h (UInt8.le_trans h' hhi)

/-- What comes before a byte that continues no character is decoded by itself. -/
theorem fromUtf8Lossy_append_cons {c : UInt8} (hc : isCont 0x80 0xBF c = false) (p s : Bytes) :
    fromUtf8Lossy (p ++ c :: s) = fromUtf8Lossy p ++ fromUtf8Lossy (c :: s) := by
  have hthree : ∀ a : UInt8, isCont (if a = 0xE0 then 0xA0 else 0x80)
      (if a = 0xED then 0x9F else 0xBF) c = false := by
    intro a
    apply isCont_of_narrow _ _ hc <;> split <;> decide
  have hfour : ∀ a : UInt8, isCont (if a = 0xF0 then 0x90 else 0x80)
      (if a = 0xF4 then 0x8F else 0xBF) c = false := by
    intro a
    apply isCont_of_narrow _ _ hc <;> split <;> decide
  fun_induction fromUtf8Lossy p with
  | case1 => rfl
  | _ =>
    simp only [cons_append] at *
    rw [fromUtf8Lossy.eq_def]
    simp only [*, if_true, if_false, Bool.false_eq_true, nil_append, append_assoc]

/-- A text is decoded piece by piece, between its ASCII bytes. -/
theorem fromUtf8Lossy_append_ascii {c : UInt8} (hc : c < 0x80) (p s : Bytes) :
    fromUtf8Lossy (p ++ c :: s) = fromUtf8Lossy p ++ c :: fromUtf8Lossy s := by
  rw [fromUtf8Lossy_append_cons (by simp [isCont, UInt8.not_le.2 hc]), ← singleton_append,
    fromUtf8Lossy_append (by simpa using hc), singleton_append]

/-- Decoding adds no ASCII byte. -/
theorem mem_of_mem_fromUtf8Lossy {s : Bytes} {b : UInt8} (hb : b < 0x80)
    (h : b ∈ fromUtf8Lossy s) : b ∈ s := by
  have hno : b ∉ REPLACEMENT := by
    intro hmem
    simp only [REPLACEMENT, mem_cons, not_mem_nil, or_false] at hmem
    rcases hmem with rfl | rfl | rfl <;> exact absurd hb (by decide)
  fun_induction fromUtf8Lossy s with
  | _ => grind

/-- What was decoded is decoded as it is. -/
theorem fromUtf8Lossy_fromUtf8Lossy (s : Bytes) :
    fromUtf8Lossy (fromUtf8Lossy s) = fromUtf8Lossy s := by
  have hrep : ∀ s, fromUtf8Lossy (REPLACEMENT ++ s) = REPLACEMENT ++ fromUtf8Lossy s := by
    intro s
    rw [REPLACEMENT, cons_append, fromUtf8Lossy.eq_def]
    rfl
  fun_induction fromUtf8Lossy s with
  | case1 => rfl
  | _ =>
    first
    | rfl
    | rw [hrep]; simp only [*]
    | rw [fromUtf8Lossy.eq_def]; simp only [*, if_true, if_false, Bool.false_eq_true]

/-- The bytes are a character that is decoded by itself, wherever it stands. -/
def Whole (w : Bytes) : Prop :=
  (∀ r, fromUtf8Lossy (w ++ r) = w ++ fromUtf8Lossy r) ∧
    ∀ p, fromUtf8Lossy (p ++ w) = fromUtf8Lossy p ++ w

theorem whole_cons {c : UInt8} {w : Bytes} (hc : isCont 0x80 0xBF c = false)
    (hw : ∀ r, fromUtf8Lossy (c :: w ++ r) = c :: w ++ fromUtf8Lossy r) : Whole (c :: w) := by
  have hself : fromUtf8Lossy (c :: w) = c :: w := by simpa [fromUtf8Lossy] using hw []
  exact ⟨hw, fun p => by rw [fromUtf8Lossy_append_cons hc, hself]⟩

theorem whole_ascii {a : UInt8} (ha : a < 0x80) : Whole [a] :=
  ⟨fromUtf8Lossy_append (by simpa using ha), fun p => fromUtf8Lossy_append_ascii ha p []⟩

theorem whole_space1 {a : UInt8} (h : isSpace1 a = true) : Whole [a] := by
  simp only [isSpace1, Bool.or_eq_true, Bool.and_eq_true, decide_eq_true_eq, beq_iff_eq] at h
  rcases h with ⟨-, h⟩ | rfl
  exacts [whole_ascii (UInt8.lt_of_le_of_lt h (by decide)), whole_ascii (by decide)]

theorem whole_space2 {a b : UInt8} (h : isSpace2 a b = true) : Whole [a, b] := by
  simp only [isSpace2, Bool.and_eq_true, Bool.or_eq_true, beq_iff_eq] at h
  obtain ⟨rfl, rfl | rfl⟩ := h <;>
    exact whole_cons (by decide) fun r => by rw [cons_append, fromUtf8Lossy.eq_def]; rfl

theorem whole_space3 {a b c : UInt8} (h : isSpace3 a b c = true) : Whole [a, b, c] := by
  simp only [isSpace3, Bool.and_eq_true, Bool.or_eq_true, beq_iff_eq, decide_eq_true_eq] at h
  have hc : isCont 0x80 0xBF c = true := by grind [isCont]
  have hab : a = 0xE1 ∧ b = 0x9A ∨ a = 0xE2 ∧ b = 0x80 ∨ a = 0xE2 ∧ b = 0x81 ∨
      a = 0xE3 ∧ b = 0x80 := by
    tauto
  obtain ⟨rfl, rfl⟩ | ⟨rfl, rfl⟩ | ⟨rfl, rfl⟩ | ⟨rfl, rfl⟩ := hab <;>
    exact whole_cons (by decide) fun r => by
      rw [cons_append, fromUtf8Lossy.eq_def]
      exact if_pos hc

/-- Without the white space at its ends a decoded text is a decoded text. -/
theorem fromUtf8Lossy_trim {s : Bytes} (h : fromUtf8Lossy s = s) :
    fromUtf8Lossy (trim s) = trim s := by
  have hfront : ∀ {w r}, Whole w → fromUtf8Lossy (w ++ r) = w ++ r → fromUtf8Lossy r = r :=
    fun hw h => append_cancel_left ((hw.1 _).symm.trans h)
  have hback : ∀ {w r}, Whole w → fromUtf8Lossy (r ++ w) = r ++ w → fromUtf8Lossy r = r :=
    fun hw h => append_cancel_right ((hw.2 _).symm.trans h)
  have hstart : fromUtf8Lossy (trimStart s) = trimStart s :=
    dropSpaces_keeps (P := fun r => fromUtf8Lossy r = r) (fun _ _ ha => hfront (whole_space1 ha))
      (fun _ _ _ hab => hfront (whole_space2 hab))
      (fun _ _ _ _ habc => hfront (whole_space3 habc)) h
  refine dropSpaces_keeps (P := fun r => fromUtf8Lossy r.reverse = r.reverse) (fun _ _ ha h => ?_)
    (fun _ _ _ hab h => ?_) (fun _ _ _ _ habc h => ?_) (by rwa [reverse_reverse])
  · exact hback (whole_space1 ha) (by simpa using h)
  · exact hback (whole_space2 hab) (by simpa using h)
  · exact hback (whole_space3 habc) (by simpa using h)

/-! ## Splitting -/

theorem of_mem_splitOn {s p : Bytes} {c b : UInt8} (hp : p ∈ s.splitOn c) (hb : b ∈ p) :
    b ∈ s ∧ b ≠ c := by
  induction s generalizing p with
  | nil =>
    rw [splitOn_nil, mem_singleton] at hp
    simp [hp] at hb
  | cons a s ih =>
    have later : ∀ {q}, q ∈ s.splitOn c → b ∈ q → b ∈ a :: s ∧ b ≠ c := fun hq hb =>
      (ih hq hb).imp_left (.tail _)
    rw [splitOn_cons_eq_if_modifyHead] at hp
    split at hp
    · rcases mem_cons.1 hp with rfl | hp
      exacts [absurd hb not_mem_nil, later hp hb]
    · rename_i hac
      obtain ⟨q, l, hl⟩ : ∃ q l, s.splitOn c = q :: l :=
        exists_cons_of_ne_nil (splitOn_ne_nil _ _)
      rw [hl, modifyHead_cons] at hp
      rcases mem_cons.1 hp with rfl | hp
      · rcases mem_cons.1 hb with rfl | hb
        exacts [⟨.head _, by simpa using hac⟩, later (hl ▸ .head _) hb]
      · exact later (hl ▸ .tail _ hp) hb

theorem mem_of_mem_splitOn {s p : Bytes} {c b : UInt8} (hp : p ∈ s.splitOn c) (hb : b ∈ p) :
    b ∈ s :=
  (of_mem_splitOn hp hb).1

theorem notMem_of_mem_splitOn {s p : Bytes} {c : UInt8} (hp : p ∈ s.splitOn c) : c ∉ p :=
  fun h => (of_mem_splitOn hp h).2 rfl

theorem append_cons_inj {x y s t : Bytes} {c : UInt8} (hx : c ∉ x) (hy : c ∉ y)
    (h : x ++ c :: s = y ++ c :: t) : x = y ∧ s = t := by
  rcases append_eq_append_iff.1 h with ⟨z, rfl, h⟩ | ⟨z, rfl, h⟩ <;> cases z <;> simp_all

theorem mem_of_mem_intercalate {sep : Bytes} {l : List Bytes} {b : UInt8}
    (h : b ∈ sep.intercalate l) : b ∈ sep ∨ ∃ p ∈ l, b ∈ p := by
  rw [intercalate] at h
  obtain ⟨q, hq, hb⟩ := mem_flatten.1 h
  induction l with
  | nil => cases hq
  | cons p l ih =>
    cases l with
    | nil => exact .inr ⟨p, .head _, mem_singleton.1 hq ▸ hb⟩
    | cons p' l =>
      rw [intersperse_cons_cons] at hq
      rcases mem_cons.1 hq with rfl | hq
      · exact .inr ⟨q, .head _, hb⟩
      · rcases mem_cons.1 hq with rfl | hq
        · exact .inl hb
        · exact (ih (mem_flatten.2 ⟨q, hq, hb⟩) hq).imp_right
            fun ⟨p, hp, hb⟩ => ⟨p, .tail _ hp, hb⟩

/-! ## Decimal numbers -/

/-- The byte of a digit character. -/
def digitByte (c : Char) : UInt8 := UInt8.ofNat c.toNat

def isDigit (b : UInt8) : Bool := 48 ≤ b && b ≤ 57

def natBytes (n : Nat) : Bytes := (Nat.toDigits 10 n).map digitByte

/-- `i64::to_string`. -/
def intBytes : Int → Bytes
  | .ofNat n => natBytes n
  | .negSucc n => 45 :: natBytes (n + 1)

/-- The value of a non-empty string of digits. -/
def parseDigits (s : Bytes) : Option Nat :=
  if s ≠ [] ∧ s.all isDigit then
    some (Nat.ofDigitChars 10 (s.map fun b => Char.ofNat b.toNat) 0)
  else none

/-- The range of an `i64`. -/
def InI64 (n : Int) : Prop := -9223372036854775808 ≤ n ∧ n < 9223372036854775808

instance (n : Int) : Decidable (InI64 n) := inferInstanceAs (Decidable (_ ∧ _))

/-- `str::parse::<i64>`: an optional sign and at least one digit, refused when out of range. -/
def parseI64 (s : Bytes) : Option Int :=
  let n := match s with
    | 45 :: r => (parseDigits r).map fun n : Nat => -(n : Int)
    | 43 :: r => (parseDigits r).map Int.ofNat
    | r => (parseDigits r).map Int.ofNat
  n.filter fun n => InI64 n

theorem char_digitByte {c : Char} (h : c.isDigit) : Char.ofNat (digitByte c).toNat = c := by
  have hc : 48 ≤ c.toNat ∧ c.toNat ≤ 57 := by
    simp only [Char.isDigit, Bool.and_eq_true, decide_eq_true_eq] at h
    exact ⟨h.1, h.2⟩
  have hn : (digitByte c).toNat = c.toNat := by
    simp only [digitByte, UInt8.toNat_ofNat']
    omega
  rw [hn, Char.ofNat_toNat]

theorem isDigit_of_mem_natBytes {n : Nat} {b : UInt8} (h : b ∈ natBytes n) : isDigit b := by
  obtain ⟨c, hc, rfl⟩ := mem_map.1 h
  have hd := isDigit_of_mem_toDigits (by decide) (by decide) hc
  simp only [Char.isDigit, Bool.and_eq_true, decide_eq_true_eq] at hd
  have h1 : 48 ≤ c.toNat := hd.1
  have h2 : c.toNat ≤ 57 := hd.2
  simp only [isDigit, digitByte, Bool.and_eq_true, decide_eq_true_eq, UInt8.le_iff_toNat_le,
    UInt8.toNat_ofNat', UInt8.reduceToNat]
  omega

theorem natBytes_ne_nil (n : Nat) : natBytes n ≠ [] := by
  simp [natBytes, toDigits_ne_nil]

theorem parseDigits_natBytes (n : Nat) : parseDigits (natBytes n) = some n := by
  have hall : (natBytes n).all isDigit := all_eq_true.2 fun b hb => isDigit_of_mem_natBytes hb
  rw [parseDigits, if_pos ⟨natBytes_ne_nil n, hall⟩, natBytes, map_map]
  have hmap : (toDigits 10 n).map ((fun b => Char.ofNat b.toNat) ∘ digitByte) =
      toDigits 10 n := by
    conv_rhs => rw [← map_id (toDigits 10 n)]
    exact map_congr_left fun c hc =>
      char_digitByte (isDigit_of_mem_toDigits (by decide) (by decide) hc)
  rw [hmap, ofDigitChars_toDigits (by decide) (by decide)]

theorem of_mem_intBytes {n : Int} {b : UInt8} (h : b ∈ intBytes n) : b = 45 ∨ isDigit b := by
  cases n with
  | ofNat n => exact .inr (isDigit_of_mem_natBytes h)
  | negSucc n => exact (mem_cons.1 h).imp_right isDigit_of_mem_natBytes

theorem trim_intBytes (n : Int) : trim (intBytes n) = intBytes n := by
  have hdigit : ∀ b, isDigit b → isEdgeSpace b = false := by
    intro b hb
    simp only [isDigit, isEdgeSpace, isSpace1, Bool.and_eq_true, decide_eq_true_eq,
      Bool.or_eq_false_iff, Bool.and_eq_false_iff, decide_eq_false_iff_not, beq_eq_false_iff_ne,
      UInt8.le_iff_toNat_le, ne_eq, ← UInt8.toNat_inj, UInt8.reduceToNat] at hb ⊢
    omega
  refine trim_eq_self fun b hb => ?_
  rcases of_mem_intBytes hb with rfl | hb
  exacts [by decide, hdigit b hb]

theorem parseI64_intBytes {n : Int} (h : InI64 n) : parseI64 (intBytes n) = some n := by
  cases n with
  | ofNat n =>
    cases hb : natBytes n with
    | nil => exact absurd hb (natBytes_ne_nil n)
    | cons a r =>
      have ha : isDigit a := isDigit_of_mem_natBytes (hb ▸ mem_cons_self)
      have h1 : a ≠ 45 := by rintro rfl; exact absurd ha (by decide)
      have h2 : a ≠ 43 := by rintro rfl; exact absurd ha (by decide)
      have hd := parseDigits_natBytes n
      rw [hb] at hd
      have h' : InI64 (n : Int) := h
      simp [parseI64, intBytes, hb, h1, h2, hd, h']
  | negSucc n =>
    have hn : -((n + 1 : Nat) : Int) = Int.negSucc n := rfl
    have h' : InI64 (-((n + 1 : Nat) : Int)) := h
    simp only [parseI64, intBytes, parseDigits_natBytes, Option.map_some]
    rw [Option.filter_some, if_pos (decide_eq_true h'), hn]

theorem isUtf8_intBytes (n : Int) : isUtf8 (intBytes n) = true := by
  have hdigit : ∀ b, isDigit b → b < 0x80 := by
    intro b hb
    simp only [isDigit, Bool.and_eq_true, decide_eq_true_eq, UInt8.le_iff_toNat_le,
      UInt8.lt_iff_toNat_lt, UInt8.reduceToNat] at hb ⊢
    omega
  refine isUtf8_of_ascii fun b hb => ?_
  rcases of_mem_intBytes hb with rfl | hb
  exacts [by decide, hdigit b hb]

/-- **A stored counter reads back as itself**: the value an increment wrote is the value the next
one parses. -/
theorem parseI64_trim_intBytes {n : Int} (h : InI64 n) : parseI64 (trim (intBytes n)) = some n := by
  rw [trim_intBytes, parseI64_intBytes h]

end Bytes
