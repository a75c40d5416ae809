import Askr.Data.Bytes

/-!
# Applications in shared memory

`ns.rs`: an application is sixteen lower-case hex digits, a key is stored under its application as
those digits, a separator and the key itself, and `split` takes a stored name apart. The application
in force (`ns::current`) is an argument `Option App` here, `none` being a process that never set
one.

`sip13` is the hash the source writes out for application ids. It is what `DefaultHasher` computes
today, so the tables of the other modules, which take any 64-bit hasher, are run on concrete keys
with `bytesHash`.
-/

namespace Askr.Ns

open List Bytes

/-- Separates the application from the key. -/
def SEP : UInt8 := 0x1f

/-- Sixteen hex digits plus the separator. -/
def PREFIX_LEN : Nat := 17

def isLowerHex (b : UInt8) : Bool := (48 ≤ b && b ≤ 57) || (97 ≤ b && b ≤ 102)

/-- One application's identity: sixteen lower-case hex digits. -/
structure App where
  hex : Bytes
  length_hex : hex.length = PREFIX_LEN - 1
  digits : hex.all isLowerHex = true
deriving DecidableEq

/-- `u8::is_ascii_hexdigit`. -/
def isHexDigit (b : UInt8) : Bool := isLowerHex b || (65 ≤ b && b ≤ 70)

theorem isLowerHex_lowerByte (b : UInt8) (h : isHexDigit b) : isLowerHex (lowerByte b) := by
  by_cases hu : 65 ≤ b ∧ b ≤ 90
  · rw [lowerByte, if_pos hu]
    simp only [isHexDigit, isLowerHex, Bool.or_eq_true, Bool.and_eq_true, decide_eq_true_eq,
      UInt8.le_iff_toNat_le, UInt8.toNat_add, UInt8.reduceToNat] at h hu ⊢
    omega
  · rw [lowerByte, if_neg hu]
    simp only [isHexDigit, isLowerHex, Bool.or_eq_true, Bool.and_eq_true, decide_eq_true_eq,
      UInt8.le_iff_toNat_le, UInt8.reduceToNat] at h hu ⊢
    omega

/-- `App::parse`: exactly sixteen hex digits, lowered. -/
def App.parse (s : Bytes) : Option App :=
  if h : s.length = PREFIX_LEN - 1 ∧ s.all isHexDigit then
    some { hex := toAsciiLowercase s
           length_hex := by rw [toAsciiLowercase, length_map, h.1]
           digits := by
            rw [toAsciiLowercase, all_map, all_eq_true]
            exact fun b hb => isLowerHex_lowerByte b (all_eq_true.1 h.2 b hb) }
  else none

/-- The bytes a stored key of the application starts with. -/
def App.prefixBytes (a : App) : Bytes := a.hex ++ [SEP]

/-- `ns::key`: the key under the application in force, or unchanged when there is none. -/
def key (current : Option App) (k : Bytes) : Bytes :=
  match current with
  | some app => app.prefixBytes ++ k
  | none => k

/-- `ns::split`: the application a stored key belongs to, and the name in it. -/
def split (stored : Bytes) : Option App × Bytes :=
  if stored[PREFIX_LEN - 1]? = some SEP then
    match App.parse (stored.take (PREFIX_LEN - 1)) with
    | some app => (some app, stored.drop PREFIX_LEN)
    | none => (none, stored)
  else (none, stored)

/-- `ns::owns`: does the stored key belong to the application in force? With none in force, only
keys that carry no application do. -/
def owns (current : Option App) (stored : Bytes) : Bool :=
  match current with
  | some app => app.prefixBytes.isPrefixOf stored
  | none => (split stored).1.isNone

theorem key_injective (current : Option App) : Function.Injective (key current) := by
  intro a b h
  cases current with
  | none => exact h
  | some app => exact append_cancel_left h

theorem App.length_prefixBytes (a : App) : a.prefixBytes.length = PREFIX_LEN := by
  rw [App.prefixBytes, length_append, a.length_hex]
  rfl

theorem isPrefixOf_key (a b : App) (k : Bytes) :
    b.prefixBytes.isPrefixOf (key (some a) k) = true ↔ a = b := by
  rw [List.isPrefixOf_iff_prefix]
  refine ⟨fun h => ?_, fun h => h ▸ prefix_append _ _⟩
  have hlen := b.length_prefixBytes.trans a.length_prefixBytes.symm
  have heq := (prefix_of_prefix_length_le h (prefix_append _ k)
    (Nat.le_of_eq hlen)).eq_of_length hlen
  obtain ⟨ha, da⟩ := a
  obtain ⟨hb, db⟩ := b
  have hhex : hb = ha := append_cancel_right heq
  simp [hhex]

theorem owns_take_key (a b : App) (k : Bytes) {n : Nat} (hn : PREFIX_LEN ≤ n) :
    owns (some b) ((key (some a) k).take n) = true ↔ a = b := by
  rw [← isPrefixOf_key a b k, owns, isPrefixOf_iff_prefix, isPrefixOf_iff_prefix,
    prefix_take_iff, b.length_prefixBytes]
  exact and_iff_left hn

theorem owns_take (current : Option App) (stored : Bytes) {n : Nat} (hn : PREFIX_LEN ≤ n) :
    owns current (stored.take n) = owns current stored := by
  cases current with
  | some app =>
    rw [Bool.eq_iff_iff, owns, owns, isPrefixOf_iff_prefix, isPrefixOf_iff_prefix,
      prefix_take_iff, app.length_prefixBytes]
    exact and_iff_left hn
  | none =>
    have hlt : PREFIX_LEN - 1 < n := Nat.lt_of_lt_of_le (by decide) hn
    have htake : (stored.take n).take (PREFIX_LEN - 1) = stored.take (PREFIX_LEN - 1) := by
      rw [take_take, Nat.min_eq_left (Nat.le_of_lt hlt)]
    simp only [owns, split, getElem?_take_of_lt hlt, htake]
    split
    · split <;> rfl
    · rfl

theorem key_ne {a b : App} (h : a ≠ b) (k l : Bytes) : key (some a) k ≠ key (some b) l := by
  intro heq
  exact h ((isPrefixOf_key a b k).1 (heq ▸ (isPrefixOf_key b b l).2 rfl))

/-! ## The hash of a byte string -/

/-- The four words of a SipHash state. -/
structure Sip where
  v0 : UInt64
  v1 : UInt64
  v2 : UInt64
  v3 : UInt64

def rotateLeft (x n : UInt64) : UInt64 := (x <<< n) ||| (x >>> (64 - n))

def sipRound (s : Sip) : Sip :=
  let v0 := s.v0 + s.v1
  let v1 := rotateLeft s.v1 13 ^^^ v0
  let v0 := rotateLeft v0 32
  let v2 := s.v2 + s.v3
  let v3 := rotateLeft s.v3 16 ^^^ v2
  let v0 := v0 + v3
  let v3 := rotateLeft v3 21 ^^^ v0
  let v2 := v2 + v1
  let v1 := rotateLeft v1 17 ^^^ v2
  let v2 := rotateLeft v2 32
  ⟨v0, v1, v2, v3⟩

def leWord : Bytes → UInt64
  | [] => 0
  | b :: r => b.toUInt64 ||| (leWord r <<< 8)

def leBytes (n : UInt64) : Bytes :=
  (range 8).map fun i => (n >>> (8 * i.toUInt64)).toUInt8

/-- Absorb one word with one compression round. -/
def absorb (s : Sip) (m : UInt64) : Sip :=
  let s := sipRound { s with v3 := s.v3 ^^^ m }
  { s with v0 := s.v0 ^^^ m }

/-- Absorb the eight-byte chunks of a message; what is left over is returned. -/
def absorbChunks : Sip → Bytes → Sip × Bytes
  | s, a :: b :: c :: d :: e :: f :: g :: h :: r =>
    absorbChunks (absorb s (leWord [a, b, c, d, e, f, g, h])) r
  | s, r => (s, r)

/-- SipHash-1-3 with zero keys. -/
def sip13 (msg : Bytes) : UInt64 :=
  let init : Sip := ⟨0x736f6d6570736575, 0x646f72616e646f6d, 0x6c7967656e657261, 0x7465646279746573⟩
  let (s, rest) := absorbChunks init msg
  let last := ((msg.length.toUInt64 &&& 0xff) <<< 56) ||| leWord rest
  let s := absorb s last
  let s := { s with v2 := s.v2 ^^^ 0xff }
  let s := sipRound (sipRound (sipRound s))
  s.v0 ^^^ s.v1 ^^^ s.v2 ^^^ s.v3

/-- `bytes_hash`: `sip13` of the length-prefixed bytes, which is what `DefaultHasher` gives for a
byte slice. -/
def bytesHash (b : Bytes) : UInt64 := sip13 (leBytes b.length.toUInt64 ++ b)

end Askr.Ns
