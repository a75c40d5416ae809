import Askr.Policy.Store
import Mathlib.Data.List.TakeWhile

/-!
# Ranges of a static file

`statics.rs`: what is sent of a file for a `Range` header. Of several ranges `parse_range` takes the
first, where it is said to fall back to the whole file (`first_of_two_ranges`), and it takes numbers
with blanks around them or a plus sign in front. `parseRange_documented` says for which headers the
answer is the documented one all the same (`Answered`).
-/

namespace Askr.Statics

open Bytes Policy List

def RANGE : Bytes := ofString "range"

/-- One side of a range: a number or nothing. -/
def side (parse : Bytes → Option Nat) : Bytes → Option (Option Nat)
  | [] => some none
  | s => (parse s).map some

/-- `split_once('-')`, and the two sides read. -/
def readRange (read : Bytes → Option (Option Nat)) (spec : Bytes) :
    Option (Option Nat × Option Nat) :=
  match spec.dropWhile (· ≠ 45) with
  | [] => none
  | _ :: e =>
    (read (spec.takeWhile (· ≠ 45))).bind fun first => (read e).map fun last => (first, last)

/-- What is behind `bytes=`. -/
def bytesSpec (v : Bytes) : Option Bytes :=
  if (ofString "bytes=").isPrefixOf v then some (v.drop 6) else none

def bounds (len : Nat) : Option Nat × Option Nat → Option (Nat × Nat)
  | (none, some n) => if n > 0 then some (len - n, len - 1) else none
  | (some a, none) => some (a, len - 1)
  | (some a, some b) => some (a, min b (len - 1))
  | (none, none) => none

def parseRange (headers : HeaderMap) (len : Nat) : Nat × Nat :=
  if len = 0 then (0, len - 1)
  else
    let range := ((getStr headers RANGE).bind bytesSpec).bind fun spec =>
      readRange (fun s => side parseU64 (trim s)) (trim (spec.takeWhile (· ≠ 44)))
    match range.bind (bounds len) with
    | none => (0, len - 1)
    | some (start, stop) => if start > stop ∨ start ≥ len then (0, len - 1) else (start, stop)

structure Sent where
  status : Nat
  contentRange : Option Bytes
  length : Nat
  body : Bytes

def rangeText (start stop len : Nat) : Bytes :=
  ofString "bytes " ++ natBytes start ++ [45] ++ natBytes stop ++ [47] ++ natBytes len

/-- `serve_static`, from `parse_range` on. -/
def serveStatic (headers : HeaderMap) (file : Bytes) : Sent :=
  let len := file.length
  let (start, stop) := parseRange headers len
  let part := getAll headers RANGE ≠ [] ∧ (start ≠ 0 ∨ stop ≠ len - 1)
  let sendLen := if len = 0 then 0 else stop + 1 - start
  { status := if part then 206 else 200
    contentRange := if part then some (rangeText start stop len) else none
    length := sendLen
    body := (file.drop start).take sendLen }

/-! ## What is documented -/

/-- The header as `bytes=a-b`, `bytes=a-` or `bytes=-n`; anything else is not one range. -/
def oneRange (v : Bytes) : Option (Option Nat × Option Nat) :=
  (bytesSpec v).bind (readRange (side parseDigits))

/-- The range in front of the first comma, with blanks around it and its numbers and a plus sign in
front of them allowed, and numbers of 64 bits. -/
def firstRange (v : Bytes) : Option (Option Nat × Option Nat) :=
  (bytesSpec v).bind fun spec =>
    readRange (fun s => side parseU64 (trim s)) (trim (spec.takeWhile (· ≠ 44)))

/-- The numbers of the range have 64 bits. -/
def small (x : Option Nat × Option Nat) : Bool := x.1.all (· < U64) && x.2.all (· < U64)

/-- The range clamped to the file, if it can be satisfied. -/
def within (len : Nat) : Option Nat × Option Nat → Option (Nat × Nat)
  | (some a, some b) => if a ≤ b ∧ a < len then some (a, min b (len - 1)) else none
  | (some a, none) => if a < len then some (a, len - 1) else none
  | (none, some n) => if 0 < n ∧ 0 < len then some (len - n, len - 1) else none
  | (none, none) => none

/-- The status, the length and `Content-Range` are those of the part of the file that is sent. -/
def Sent.Describes (file : Bytes) (x : Sent) : Prop :=
  x.length = x.body.length ∧
    (x.status = 200 ∧ x.contentRange = none ∧ x.body = file ∨
      ∃ start stop, x.status = 206 ∧ x.contentRange = some (rangeText start stop file.length) ∧
        start ≤ stop ∧ stop < file.length ∧ x.body = (file.drop start).take (stop + 1 - start))

/-- No comma, plus sign or blank. -/
def Plain (v : Bytes) : Prop := ∀ b ∈ v, 33 ≤ b ∧ b < 127 ∧ b ≠ 44 ∧ b ≠ 43

theorem Plain.trim {s : Bytes} (h : Plain s) : Bytes.trim s = s := by
  refine trim_eq_self fun b hb => ?_
  have := h b hb
  simp [isEdgeSpace, isSpace1, ← UInt8.toNat_inj, UInt8.le_iff_toNat_le,
    UInt8.lt_iff_toNat_lt] at this ⊢
  omega

theorem Plain.side {s : Bytes} (h : Plain s) : Statics.side parseU64 (Bytes.trim s) =
    (Statics.side parseDigits s).filter fun n => n.all (· < U64) := by
  rw [h.trim]
  rcases s with _ | ⟨b, s⟩
  · rfl
  · have hsign : parseU64 (b :: s) = (parseDigits (b :: s)).filter (· < U64) := by
      simp [parseU64, (h b (.head _)).2.2.2]
    simp only [Statics.side, hsign]
    cases parseDigits (b :: s) with
    | none => rfl
    | some n => by_cases hn : n < U64 <;> simp [Option.filter, hn]

theorem bounds_le {len : Nat} {x : Option Nat × Option Nat} {r : Nat × Nat}
    (h : bounds len x = some r) : r.2 ≤ len - 1 := by
  rcases x with ⟨_ | a, _ | b⟩ <;> simp [bounds] at h
  · rw [← h.2]
  · rw [← h]
  · rw [← h]
    exact Nat.min_le_right _ _

theorem parseRange_cases (headers : HeaderMap) (len : Nat) : parseRange headers len = (0, len - 1) ∨
    getStr headers RANGE ≠ none ∧ (parseRange headers len).1 ≤ (parseRange headers len).2 ∧
      (parseRange headers len).2 < len := by
  rw [parseRange]
  split
  · exact .inl rfl
  · dsimp only
    split
    · exact .inl rfl
    · rename_i start stop hr
      split
      · exact .inl rfl
      · obtain ⟨x, hx, hb⟩ := Option.bind_eq_some_iff.1 hr
        obtain ⟨spec, hspec, -⟩ := Option.bind_eq_some_iff.1 hx
        have := bounds_le hb
        refine .inr ⟨fun hnone => ?_, ?_, ?_⟩
        · simp [hnone] at hspec
        all_goals simp only; omega

theorem serveStatic_describes (headers : HeaderMap) (file : Bytes) :
    (serveStatic headers file).Describes file := by
  by_cases hr : parseRange headers file.length = (0, file.length - 1)
  · have hall : (if file.length = 0 then 0 else file.length - 1 + 1 - 0) = file.length := by
      split <;> omega
    simp only [Sent.Describes, serveStatic, hr, hall]
    simp
  · obtain ⟨hsome, hle, hlt⟩ := (parseRange_cases headers file.length).resolve_left hr
    have hget : getAll headers RANGE ≠ [] := fun h => hsome (by simp [getStr, h])
    rcases hp : parseRange headers file.length with ⟨start, stop⟩
    rw [hp] at hle hlt hr
    have hpart : start ≠ 0 ∨ stop ≠ file.length - 1 := by
      by_contra hno
      simp only [not_or, not_not] at hno
      exact hr (by rw [hno.1, hno.2])
    have hlen : file.length ≠ 0 := by omega
    simp only [Sent.Describes, serveStatic, hp, hget, hpart, hlen, ne_eq, not_false_eq_true,
      and_self, if_true, if_false]
    refine ⟨?_, .inr ⟨start, stop, trivial, rfl, hle, hlt, rfl⟩⟩
    rw [length_take, length_drop]
    omega

/-- Without commas, plus signs and blanks it is the same range, if its numbers have 64 bits. -/
theorem Plain.firstRange {v : Bytes} (h : Plain v) :
    Statics.firstRange v = (oneRange v).filter small := by
  rw [Statics.firstRange, oneRange]
  cases hspec : bytesSpec v with
  | none => rfl
  | some spec =>
    obtain ⟨-, rfl⟩ : _ ∧ v.drop 6 = spec := by simpa [bytesSpec] using hspec
    have hsub : ∀ {s}, s ⊆ v.drop 6 → Plain s := fun hs b hb => h b (mem_of_mem_drop (hs hb))
    have hcomma : (v.drop 6).takeWhile (· ≠ 44) = v.drop 6 :=
      takeWhile_eq_self_iff.2 fun b hb => by simpa using (h b (mem_of_mem_drop hb)).2.2.1
    rw [Option.bind_some, Option.bind_some, hcomma, (hsub (Subset.refl _)).trim, readRange,
      readRange]
    cases hd : (v.drop 6).dropWhile (· ≠ 45) with
    | nil => rfl
    | cons c e =>
      have he : e ⊆ v.drop 6 := fun b hb =>
        (dropWhile_suffix (· ≠ 45)).subset (by rw [hd]; exact .tail _ hb)
      simp only [(hsub (List.takeWhile_prefix _).subset).side, (hsub he).side]
      cases Statics.side parseDigits ((v.drop 6).takeWhile (· ≠ 45)) with
      | none => rfl
      | some a =>
        cases Statics.side parseDigits e with
        | none => cases ha : a.all (· < U64) <;> simp [Option.filter, ha]
        | some b =>
          cases ha : a.all (· < U64) <;> cases hb : b.all (· < U64) <;>
            simp [Option.filter, small, ha, hb]

theorem plain_of_side {s : Bytes} {n : Option Nat} (h : side parseDigits s = some n) :
    Plain s := by
  rcases s with _ | ⟨b, s⟩
  · intro b hb
    cases hb
  · intro c hc
    simp only [side, parseDigits] at h
    split at h
    · rename_i hdigits
      have hd := all_eq_true.1 hdigits.2 c hc
      simp only [isDigit, Bool.and_eq_true, decide_eq_true_eq] at hd
      simp only [UInt8.le_iff_toNat_le, UInt8.lt_iff_toNat_lt, ne_eq, ← UInt8.toNat_inj,
        UInt8.reduceToNat] at hd ⊢
      omega
    · cases h

/-- One range has no comma, plus sign or blank. -/
theorem plain_of_oneRange {v : Bytes} {x : Option Nat × Option Nat} (h : oneRange v = some x) :
    Plain v := by
  obtain ⟨spec, hspec, hread⟩ := Option.bind_eq_some_iff.1 h
  obtain ⟨hpre, rfl⟩ : _ ∧ v.drop 6 = spec := by simpa [bytesSpec] using hspec
  obtain ⟨t, rfl⟩ := hpre
  have hdrop : (ofString "bytes=" ++ t).drop 6 = t := rfl
  rw [hdrop, readRange] at hread
  split at hread
  · cases hread
  · rename_i c e hd
    obtain ⟨a, ha, hread⟩ := Option.bind_eq_some_iff.1 hread
    obtain ⟨b, hb, -⟩ := Option.map_eq_some_iff.1 hread
    have hdash : c = 45 := by
      have hhead := head?_dropWhile_not (fun b : UInt8 => decide (b ≠ 45)) t
      rw [hd] at hhead
      simpa using hhead
    intro x hx
    rw [← takeWhile_append_dropWhile (p := (· ≠ 45)) (l := t), hd, hdash] at hx
    simp only [mem_append, mem_cons] at hx
    have hlit : ∀ x ∈ ofString "bytes=", 33 ≤ x ∧ x < 127 ∧ x ≠ 44 ∧ x ≠ 43 := by decide +kernel
    rcases hx with hx | hx | rfl | hx
    exacts [hlit x hx, plain_of_side ha x hx, by decide, plain_of_side hb x hx]

theorem within_bounds (len : Nat) (x : Option Nat × Option Nat) :
    (match bounds len x with
      | none => (0, len - 1)
      | some (start, stop) => if start > stop ∨ start ≥ len then (0, len - 1) else (start, stop)) =
      (within len x).getD (0, len - 1) := by
  rcases x with ⟨_ | a, _ | b⟩ <;> simp only [bounds, within]
  · rfl
  all_goals split_ifs <;> simp <;> omega

theorem parseRange_eq (headers : HeaderMap) (len : Nat) : parseRange headers len =
    (((getStr headers RANGE).bind firstRange).bind (within len)).getD (0, len - 1) := by
  have hrange : ((getStr headers RANGE).bind bytesSpec).bind (fun spec =>
      readRange (fun s => side parseU64 (trim s)) (trim (spec.takeWhile (· ≠ 44)))) =
      (getStr headers RANGE).bind firstRange := Option.bind_assoc ..
  rw [parseRange, hrange]
  cases (getStr headers RANGE).bind firstRange with
  | none => simp
  | some x =>
    split
    · subst len
      rcases x with ⟨_ | a, _ | b⟩ <;> simp [within]
    · exact within_bounds len x

/-- The range, if there is one, cannot be satisfied or is the whole file. -/
def Whole (len : Nat) (x : Option (Option Nat × Option Nat)) : Prop :=
  (x.bind (within len)).getD (0, len - 1) = (0, len - 1)

/-- The header is one range, with numbers of 64 bits unless it comes to the whole file; or it is not
one, and what is in front of its first comma comes to the whole file. -/
def Answered (len : Nat) (v : Bytes) : Prop :=
  match oneRange v with
  | some x => small x = true ∨ Whole len (some x)
  | none => Whole len (firstRange v)

/-- A header map with one `Range`. -/
def ranged (v : Bytes) (ok : v.all admitted = true) : HeaderMap :=
  [{ name := RANGE, value := v, lower := by decide, ok }]

end Askr.Statics
