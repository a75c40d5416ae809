import Askr.Data.Bytes
import Mathlib.Data.Set.Basic

/-!
# Signatures of subscriptions

A client that subscribes to a private channel presents a token `app_key:signature`, the HMAC of
`socket_id:channel`, or of `socket_id:channel:channel_data`. HMAC is a parameter here.

A channel name may contain a colon, so the signature for such a channel is also good for the channel
that is named by the part in front of the colon, with the rest as channel data (`signature_reused`).
A signature is good for one subscription alone exactly among channels none of which goes on with a
colon from another one (`one_subscription_iff`).
-/

namespace Askr.Pusher

open Bytes Function List

/-- HMAC-SHA256: the digest of a message under a secret. -/
abbrev Hmac := Bytes → Bytes → Bytes

def ctEq (a b : Bytes) : Bool :=
  if a.length ≠ b.length then false
  else (a.zip b).foldl (fun diff p => diff ||| (p.1 ^^^ p.2)) (0 : UInt8) == 0

/-- A digit of a lower-case hexadecimal number. -/
def hexDigit (n : Nat) : UInt8 := if n < 10 then UInt8.ofNat (48 + n) else UInt8.ofNat (87 + n)

/-- `format!("{b:02x}")` of every byte. -/
def hex (digest : Bytes) : Bytes :=
  digest.flatMap fun b => [hexDigit (b.toNat / 16), hexDigit (b.toNat % 16)]

def sign (hmac : Hmac) (secret stringToSign : Bytes) : Bytes := hex (hmac secret stringToSign)

/-- The text that a subscription is signed by. -/
def stringToSign (socketId channel : Bytes) : Option Bytes → Bytes
  | some cd => socketId ++ 58 :: (channel ++ 58 :: cd)
  | none => socketId ++ 58 :: channel

/-- `rsplit(c).next()`: what is behind the last `c`. -/
def behindLast (c : UInt8) (s : Bytes) : Bytes := (s.reverse.takeWhile (· ≠ c)).reverse

def verifySubscription (hmac : Hmac) (secret socketId channel : Bytes) (channelData : Option Bytes)
    (providedAuth : Bytes) : Bool :=
  let expected := sign hmac secret (stringToSign socketId channel channelData)
  let provided := behindLast 58 providedAuth
  ctEq (toAsciiLowercase provided) expected

/-- The token that the holder of the secret issues for a subscription. -/
def issued (hmac : Hmac) (appKey secret socketId channel : Bytes) (channelData : Option Bytes) :
    Bytes :=
  appKey ++ 58 :: sign hmac secret (stringToSign socketId channel channelData)

/-! ## Comparing and printing digests -/

theorem foldl_diff_eq_zero (l : List (UInt8 × UInt8)) (d : UInt8) :
    l.foldl (fun diff p => diff ||| (p.1 ^^^ p.2)) d = 0 ↔ d = 0 ∧ ∀ p ∈ l, p.1 = p.2 := by
  induction l generalizing d with
  | nil => simp
  | cons p l ih => simp [ih, UInt8.or_eq_zero_iff, and_assoc]

theorem ctEq_iff {a b : Bytes} : ctEq a b = true ↔ a = b := by
  rw [ctEq]
  split
  · rename_i hlen
    refine iff_of_false Bool.false_ne_true fun h => hlen (congrArg length h)
  · rename_i hlen
    rw [beq_iff_eq, foldl_diff_eq_zero, not_not] at *
    constructor
    · rintro ⟨-, hall⟩
      refine ext_getElem hlen fun i ha hb => ?_
      have hi : i < (a.zip b).length := by simp; omega
      have hdiff := hall (a.zip b)[i] (getElem_mem hi)
      rwa [getElem_zip] at hdiff
    · rintro rfl
      refine ⟨rfl, fun p hp => ?_⟩
      obtain ⟨i, hi, rfl⟩ := getElem_of_mem hp
      simp

theorem lowerByte_hexDigit : ∀ n < 16, lowerByte (hexDigit n) = hexDigit n := by decide

theorem hexDigit_ne_colon : ∀ n < 16, hexDigit n ≠ 58 := by decide

theorem hexDigit_inj : ∀ m < 16, ∀ n < 16, hexDigit m = hexDigit n → m = n := by decide

theorem mem_hex {digest : Bytes} {b : UInt8} (h : b ∈ hex digest) : ∃ n < 16, b = hexDigit n := by
  obtain ⟨d, -, hb⟩ := mem_flatMap.1 h
  have hd := d.toNat_lt
  rcases mem_cons.1 hb with rfl | hb
  · exact ⟨d.toNat / 16, by omega, rfl⟩
  · exact ⟨d.toNat % 16, by omega, mem_singleton.1 hb⟩

@[simp] theorem toAsciiLowercase_hex (digest : Bytes) :
    toAsciiLowercase (hex digest) = hex digest := by
  refine (map_congr_left fun b hb => ?_).trans (map_id _)
  obtain ⟨n, hn, rfl⟩ := mem_hex hb
  exact lowerByte_hexDigit n hn

theorem colon_notMem_hex (digest : Bytes) : 58 ∉ hex digest := by
  intro h
  obtain ⟨n, hn, hcolon⟩ := mem_hex h
  exact hexDigit_ne_colon n hn hcolon.symm

theorem hex_injective : Injective hex := by
  intro a b h
  induction a generalizing b with
  | nil =>
    cases b with
    | nil => rfl
    | cons y b => cases h
  | cons x a ih =>
    cases b with
    | nil => cases h
    | cons y b =>
      have hx := x.toNat_lt
      have hy := y.toNat_lt
      obtain ⟨hhi, h⟩ := cons.inj h
      obtain ⟨hlo, h⟩ := cons.inj h
      have hdiv := hexDigit_inj _ (by omega) _ (by omega) hhi
      have hmod := hexDigit_inj _ (by omega) _ (by omega) hlo
      rw [ih h, UInt8.toNat_inj.1 (show x.toNat = y.toNat by omega)]

@[simp] theorem toAsciiLowercase_sign (hmac : Hmac) (secret text : Bytes) :
    toAsciiLowercase (sign hmac secret text) = sign hmac secret text := toAsciiLowercase_hex _

theorem sign_injective {hmac : Hmac} {secret : Bytes} (h : Injective (hmac secret)) :
    Injective (sign hmac secret) := hex_injective.comp h

/-! ## The text that is signed -/

theorem behindLast_append {c : UInt8} {a b : Bytes} (hb : c ∉ b) :
    behindLast c (a ++ c :: b) = b := by
  have hrev : (a ++ c :: b).reverse = b.reverse ++ c :: a.reverse := by simp
  rw [behindLast, hrev, takeWhile_append_of_pos, takeWhile_cons_of_neg (by simp),
    append_nil, reverse_reverse]
  intro x hx
  simpa using fun h : x = c => hb (h ▸ mem_reverse.1 hx)

theorem verifySubscription_iff {hmac : Hmac} {secret socketId channel auth : Bytes}
    {channelData : Option Bytes} :
    verifySubscription hmac secret socketId channel channelData auth = true ↔
      toAsciiLowercase (behindLast 58 auth) =
        sign hmac secret (stringToSign socketId channel channelData) := ctEq_iff

theorem verifySubscription_issued {hmac : Hmac} {appKey secret socketId c₁ c₂ : Bytes}
    {d₁ d₂ : Option Bytes} (hinj : Injective (hmac secret)) :
    verifySubscription hmac secret socketId c₂ d₂ (issued hmac appKey secret socketId c₁ d₁) = true
      ↔ stringToSign socketId c₁ d₁ = stringToSign socketId c₂ d₂ := by
  have hcolon : 58 ∉ sign hmac secret (stringToSign socketId c₁ d₁) := colon_notMem_hex _
  rw [verifySubscription_iff, issued, behindLast_append hcolon, toAsciiLowercase_sign]
  exact (sign_injective hinj).eq_iff

theorem eq_or_colon_prefix {a b s t : Bytes} (h : a ++ 58 :: s = b ++ 58 :: t) :
    a = b ∧ s = t ∨ (a ++ [58]) <+: b ∨ (b ++ [58]) <+: a := by
  rcases append_eq_append_iff.1 h with ⟨m, rfl, hm⟩ | ⟨m, rfl, hm⟩
  · cases m with
    | nil => exact .inl ⟨by simp, (cons.inj hm).2⟩
    | cons x m =>
      obtain ⟨rfl, -⟩ := cons.inj hm
      exact .inr (.inl ⟨m, by simp⟩)
  · cases m with
    | nil => exact .inl ⟨by simp, (cons.inj hm).2.symm⟩
    | cons x m =>
      obtain ⟨rfl, -⟩ := cons.inj hm
      exact .inr (.inr ⟨m, by simp⟩)

/-- The signed text determines the subscription, unless one of the names goes on with a colon from
the other one. -/
theorem stringToSign_inj {socketId c₁ c₂ : Bytes} {d₁ d₂ : Option Bytes}
    (h₁ : ¬ (c₁ ++ [58]) <+: c₂) (h₂ : ¬ (c₂ ++ [58]) <+: c₁)
    (h : stringToSign socketId c₁ d₁ = stringToSign socketId c₂ d₂) : c₁ = c₂ ∧ d₁ = d₂ := by
  cases d₁ with
  | none =>
    cases d₂ with
    | none => exact ⟨(cons.inj (append_cancel_left h)).2, rfl⟩
    | some d =>
      have hc : c₁ = c₂ ++ 58 :: d := (cons.inj (append_cancel_left h)).2
      exact absurd ⟨d, by simp [hc]⟩ h₂
  | some d =>
    cases d₂ with
    | none =>
      have hc : c₁ ++ 58 :: d = c₂ := (cons.inj (append_cancel_left h)).2
      exact absurd ⟨d, by simp [← hc]⟩ h₁
    | some d' =>
      have hc : c₁ ++ 58 :: d = c₂ ++ 58 :: d' := (cons.inj (append_cancel_left h)).2
      rcases eq_or_colon_prefix hc with ⟨rfl, rfl⟩ | hpre | hpre
      exacts [⟨rfl, rfl⟩, absurd hpre h₁, absurd hpre h₂]

/-! ## One signature, one subscription -/

/-- Among the channels `Ch`, the token for a subscription of a socket is good for no other
subscription of the socket. -/
def OneSubscription (hmac : Hmac) (secret : Bytes) (Ch : Set Bytes) : Prop :=
  ∀ appKey socketId : Bytes, ∀ c₁ ∈ Ch, ∀ c₂ ∈ Ch, ∀ d₁ d₂ : Option Bytes,
    verifySubscription hmac secret socketId c₂ d₂
        (issued hmac appKey secret socketId c₁ d₁) = true →
      c₁ = c₂ ∧ d₁ = d₂

/-- The signature for `private-x:y` subscribes to `private-x` as well. -/
theorem signature_reused : ¬ ∀ (hmac : Hmac) (secret : Bytes), Injective (hmac secret) →
        OneSubscription hmac secret Set.univ := by
  intro h
  have hinj : Injective ((fun _ m => m : Hmac) []) := injective_id
  have hone := h (fun _ m => m) [] hinj [] (ofString "1.1") (ofString "private-x:y") trivial
    (ofString "private-x") trivial none (some (ofString "y"))
    ((verifySubscription_issued hinj).2 (by decide))
  exact absurd hone.2 (by simp)

/-- A signature is good for one subscription exactly when no name goes on with a colon from
another. -/
theorem one_subscription_iff {hmac : Hmac} {secret : Bytes}
    (hinj : Injective (hmac secret)) (Ch : Set Bytes) :
    OneSubscription hmac secret Ch ↔ ∀ c ∈ Ch, ∀ c' ∈ Ch, ¬ (c' ++ [58]) <+: c := by
  constructor
  · rintro hone c hc c' hc' ⟨d, rfl⟩
    have heq : stringToSign [] (c' ++ [58] ++ d) none = stringToSign [] c' (some d) := by
      simp [stringToSign]
    have hreused := hone [] [] _ hc _ hc' none (some d) ((verifySubscription_issued hinj).2 heq)
    exact Option.some_ne_none d hreused.2.symm
  · intro hfree appKey socketId c₁ h₁ c₂ h₂ d₁ d₂ hok
    exact stringToSign_inj (hfree c₂ h₂ c₁ h₁) (hfree c₁ h₁ c₂ h₂)
      ((verifySubscription_issued hinj).1 hok)

/-- Without a colon in any name, presence channels included. -/
theorem one_subscription_colonless : OneSubscription (fun _ m => m) (ofString "secret")
      ({ofString "private-orders", ofString "presence-room"} : Set Bytes) := by
  refine (one_subscription_iff injective_id _).2 ?_
  rintro c (rfl | rfl) c' (rfl | rfl) <;> decide

end Askr.Pusher
