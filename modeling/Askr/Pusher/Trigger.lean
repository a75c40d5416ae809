import Askr.Policy.Store
import Askr.Pusher.Sign
import Mathlib.Data.List.Perm.Basic
import Mathlib.Data.List.TakeWhile

/-!
# Signatures of triggers

The server side of an application triggers events by `POST /apps/{app_id}/events`. The request is
signed in its query: `auth_signature` is the HMAC of the path and the other parameters, with their
names in lower case and in order, and `body_md5` among them is the digest of the body.

`verifyTrigger_ok_iff` says which requests are accepted. The parameters can be read back from the
text that is signed (`signedQuery_inj`), so two accepted requests with one signature have the same
path, body and parameters, in any order (`trigger_binds`).
-/

namespace Askr.Pusher

open Bytes Function Policy List Option

/-- Why a trigger was refused. -/
inductive TriggerRejected
  | missingAuth
  | bodyMismatch
  | staleTimestamp
  | badSignature
  deriving DecidableEq

def TriggerRejected.text : TriggerRejected → String
  | missingAuth => "missing auth_key/auth_timestamp/auth_version/body_md5/auth_signature"
  | bodyMismatch => "body_md5 does not match the request body"
  | staleTimestamp => "auth_timestamp is outside the allowed window"
  | badSignature => "auth_signature does not verify"

/-- How far `auth_timestamp` may be from the server clock. -/
def TRIGGER_MAX_SKEW_SECS : Nat := 600

/-- A parameter: its name in lower case and its value. -/
abbrev Param := Bytes × Bytes

/-- One `&`-separated piece of a query as a parameter. -/
def param (kv : Bytes) : Param :=
  match kv.dropWhile (· ≠ 61) with
  | [] => (toAsciiLowercase kv, [])
  | _ :: v => (toAsciiLowercase (kv.takeWhile (· ≠ 61)), v)

def params (query : Option Bytes) : List Param :=
  (((query.getD []).splitOn 38).filter (· ≠ [])).map param

/-- `find`: the value of the first parameter of a name. -/
def find (ps : List Param) (name : Bytes) : Option Bytes := (ps.find? (·.1 = name)).map (·.2)

/-- `params.remove(i)` of the first parameter of a name. -/
def remove (ps : List Param) (name : Bytes) : List Param := ps.eraseP (·.1 = name)

/-- The order of the parameters: by name, and by value under one name. -/
def ParamLe (a b : Param) : Prop := a.1 < b.1 ∨ a.1 = b.1 ∧ a.2 ≤ b.2

instance : DecidableRel ParamLe := fun _ _ => inferInstanceAs (Decidable (_ ∨ _))

/-- `format!("{k}={v}")`. -/
def paramText (p : Param) : Bytes := p.1 ++ 61 :: p.2

/-- `query_sorted`. -/
def signedQuery (ps : List Param) : Bytes :=
  [38].intercalate ((ps.insertionSort ParamLe).map paramText)

def triggerText (path : Bytes) (ps : List Param) : Bytes :=
  ofString "POST\n" ++ path ++ 10 :: signedQuery ps

def absDiff (a b : Nat) : Nat := if a < b then b - a else a - b

/-- `auth_timestamp` and `body_md5`, if the other two parameters are there as well. -/
def authParams (ps : List Param) : Option (Bytes × Bytes) := do
  let _key ← find ps (ofString "auth_key")
  let ts ← find ps (ofString "auth_timestamp")
  let _ver ← find ps (ofString "auth_version")
  let sum ← find ps (ofString "body_md5")
  return (ts, sum)

section
variable (hmac : Hmac) (md5 : Bytes → Bytes) (secret : Bytes)

def verifyTrigger (path : Bytes) (query : Option Bytes) (body : Bytes) (now : Nat) :
    Except TriggerRejected Unit :=
  match find (params query) (ofString "auth_signature") with
  | none => .error .missingAuth
  | some signature =>
    let ps := remove (params query) (ofString "auth_signature")
    match authParams ps with
    | none => .error .missingAuth
    | some (ts, sum) =>
      if ctEq (toAsciiLowercase sum) (hex (md5 body)) = false then .error .bodyMismatch
      else
        match parseU64 ts with
        | none => .error .staleTimestamp
        | some ts =>
          if absDiff now ts > TRIGGER_MAX_SKEW_SECS then .error .staleTimestamp
          else if ctEq (toAsciiLowercase signature) (sign hmac secret (triggerText path ps)) = false
          then .error .badSignature
          else .ok ()

/-- A request with everything that `verify_trigger` looks for. -/
structure Accepted (path : Bytes) (ps : List Param) (body : Bytes) (now : Nat) : Prop where
  auth : ∃ ts n sum, authParams ps = some (ts, sum) ∧ toAsciiLowercase sum = hex (md5 body) ∧
    parseU64 ts = some n ∧ absDiff now n ≤ TRIGGER_MAX_SKEW_SECS
  signature : ∃ sig, find ps (ofString "auth_signature") = some sig ∧
    toAsciiLowercase sig =
      sign hmac secret (triggerText path (remove ps (ofString "auth_signature")))

variable {hmac md5 secret}

/-! ## Which requests are accepted -/

@[simp] theorem find_cons (p : Param) (ps : List Param) (name : Bytes) :
    find (p :: ps) name = if p.1 = name then some p.2 else find ps name := by
  rw [find, find?_cons]
  split <;> simp_all [find]

@[simp] theorem remove_cons (p : Param) (ps : List Param) (name : Bytes) :
    remove (p :: ps) name = if p.1 = name then ps else p :: remove ps name := by
  rw [remove, eraseP_cons]
  split <;> simp_all [remove]

theorem find_remove {ps : List Param} {name other : Bytes} (h : name ≠ other) :
    find (remove ps other) name = find ps name := by
  induction ps with
  | nil => rfl
  | cons p ps ih =>
    rw [remove_cons, find_cons]
    split
    · rename_i hp
      rw [if_neg fun hn => h (hn.symm.trans hp)]
    · rw [find_cons, ih]

theorem authParams_remove (ps : List Param) :
    authParams (remove ps (ofString "auth_signature")) = authParams ps := by
  have hfind : ∀ name, name ≠ ofString "auth_signature" →
      find (remove ps (ofString "auth_signature")) name = find ps name := fun _ => find_remove
  rw [authParams, hfind _ (by decide), hfind _ (by decide), hfind _ (by decide),
    hfind _ (by decide)]
  rfl

theorem verifyTrigger_ok_iff {path : Bytes} {query : Option Bytes} {body : Bytes} {now : Nat} :
    verifyTrigger hmac md5 secret path query body now = .ok () ↔
      Accepted hmac md5 secret path (params query) body now := by
  simp only [verifyTrigger, authParams_remove]
  constructor
  · intro h
    split at h
    · cases h
    rename_i sig hsig
    split at h
    · cases h
    rename_i ts sum hauth
    split at h
    · cases h
    rename_i hbody
    split at h
    · cases h
    rename_i n hn
    split at h
    · cases h
    rename_i hskew
    split at h
    · cases h
    rename_i hsign
    exact ⟨⟨ts, n, sum, hauth, ctEq_iff.1 (Bool.not_eq_false _ ▸ hbody), hn,
      Nat.le_of_not_lt hskew⟩,
      sig, hsig, ctEq_iff.1 (Bool.not_eq_false _ ▸ hsign)⟩
  · rintro ⟨⟨ts, n, sum, hauth, hbody, hn, hskew⟩, sig, hsig, hsign⟩
    have hskew' : ¬ absDiff now n > TRIGGER_MAX_SKEW_SECS := Nat.not_lt.2 hskew
    simp only [hsig, hauth, hn, ctEq_iff.2 hbody, ctEq_iff.2 hsign, if_neg hskew', reduceCtorEq,
      if_false]

/-! ## The text that is signed -/

instance : Std.Total ParamLe where
  total a b := by
    rcases List.le_total a.1 b.1 with h | h <;> rcases List.le_total a.2 b.2 with h2 | h2 <;>
    simp only [ParamLe, Std.lt_iff_le_and_ne] <;> grind

instance : IsTrans Param ParamLe where
  trans a b c := by
    rintro (hab | ⟨hab, hab'⟩) (hbc | ⟨hbc, hbc'⟩)
    · exact .inl (List.lt_trans hab hbc)
    · exact .inl (hbc ▸ hab)
    · exact .inl (hab ▸ hbc)
    · exact .inr ⟨hab.trans hbc, List.le_trans hab' hbc'⟩

theorem ParamLe.antisymm {a b : Param} (hab : ParamLe a b) (hba : ParamLe b a) : a = b := by
  rcases hab with hab | ⟨hab, hab'⟩
  · rcases hba with hba | ⟨hba, -⟩
    · exact absurd hab (List.not_lt.2 (Std.le_of_lt hba))
    · exact absurd (hba ▸ hab) (List.lt_irrefl _)
  · rcases hba with hba | ⟨-, hba'⟩
    · exact absurd (hab ▸ hba) (List.lt_irrefl _)
    · exact Prod.ext hab (List.le_antisymm hab' hba')

theorem insertionSort_eq_of_perm {ps qs : List Param} (h : ps.Perm qs) :
    ps.insertionSort ParamLe = qs.insertionSort ParamLe :=
  Perm.eq_of_pairwise (fun _ _ _ _ => ParamLe.antisymm) (pairwise_insertionSort _ ps)
    (pairwise_insertionSort _ qs)
    (((perm_insertionSort _ ps).trans h).trans (perm_insertionSort _ qs).symm)

/-- A parameter as it comes out of a query: no `=` in the name, and no `&` at all. -/
def Param.Plain (p : Param) : Prop := 61 ∉ p.1 ∧ 38 ∉ p.1 ∧ 38 ∉ p.2

theorem notMem_toAsciiLowercase {s : Bytes} {c : UInt8} (hc : c < 97) (h : c ∉ s) :
    c ∉ toAsciiLowercase s := by
  intro hmem
  obtain ⟨b, hb, hlow⟩ := mem_map.1 hmem
  exact h (eq_of_lowerByte hc hlow ▸ hb)

theorem notMem_takeWhile (s : Bytes) (c : UInt8) : c ∉ s.takeWhile (· ≠ c) := by
  intro h
  simpa using mem_takeWhile_imp h

theorem param_plain {kv : Bytes} (h : 38 ∉ kv) : (param kv).Plain := by
  rw [param]
  split
  · rename_i hnone
    have heq : 61 ∉ kv := by
      intro hmem
      simpa using dropWhile_eq_nil_iff.1 hnone 61 hmem
    exact ⟨notMem_toAsciiLowercase (by decide) heq, notMem_toAsciiLowercase (by decide) h,
      not_mem_nil⟩
  · rename_i b v hsome
    have hv : 38 ∉ v := fun hmem =>
      h ((dropWhile_suffix _).subset (hsome ▸ mem_cons_of_mem b hmem))
    exact ⟨notMem_toAsciiLowercase (by decide) (notMem_takeWhile kv 61),
      notMem_toAsciiLowercase (by decide) fun hmem => h ((List.takeWhile_prefix _).subset hmem), hv⟩

theorem params_plain {query : Option Bytes} {p : Param} (h : p ∈ params query) : p.Plain := by
  obtain ⟨kv, hkv, rfl⟩ := mem_map.1 h
  exact param_plain (notMem_of_mem_splitOn (mem_filter.1 hkv).1)

theorem paramText_inj {p q : Param} (hp : p.Plain) (hq : q.Plain)
    (h : paramText p = paramText q) : p = q :=
  Prod.ext_iff.2 (append_cons_inj hp.1 hq.1 h)

theorem amp_notMem_paramText {p : Param} (hp : p.Plain) : 38 ∉ paramText p := by
  simp [paramText, hp.2.1, hp.2.2]

theorem map_paramText_inj {ps qs : List Param} (hps : ∀ p ∈ ps, p.Plain) (hqs : ∀ p ∈ qs, p.Plain)
    (h : ps.map paramText = qs.map paramText) : ps = qs := by
  induction ps generalizing qs with
  | nil => exact (map_eq_nil_iff.1 h.symm).symm
  | cons p ps ih =>
    cases qs with
    | nil => cases h
    | cons q qs =>
      obtain ⟨hpq, h⟩ := List.cons.inj h
      rw [paramText_inj (hps p (.head _)) (hqs q (.head _)) hpq,
        ih (fun a ha => hps a (.tail _ ha)) (fun a ha => hqs a (.tail _ ha)) h]

theorem signedQuery_inj {ps qs : List Param} (hps : ∀ p ∈ ps, p.Plain) (hqs : ∀ p ∈ qs, p.Plain)
    (hne : ps ≠ []) (hne' : qs ≠ []) (h : signedQuery ps = signedQuery qs) : ps.Perm qs := by
  have hread : ∀ l : List Param, (∀ p ∈ l, p.Plain) → l ≠ [] →
      (signedQuery l).splitOn 38 = (l.insertionSort ParamLe).map paramText := by
    intro l hl hne
    have hsort : l.insertionSort ParamLe ≠ [] := fun h =>
      hne (Perm.nil_eq (h ▸ perm_insertionSort ParamLe l)).symm
    refine splitOn_intercalate 38 ?_ (by simpa using hsort)
    intro t ht
    obtain ⟨p, hp, rfl⟩ := mem_map.1 ht
    exact amp_notMem_paramText (hl p ((perm_insertionSort _ l).mem_iff.1 hp))
  have htexts := congrArg (splitOn 38) h
  rw [hread ps hps hne, hread qs hqs hne'] at htexts
  have hsorted := map_paramText_inj
    (fun p hp => hps p ((perm_insertionSort _ ps).mem_iff.1 hp))
    (fun p hp => hqs p ((perm_insertionSort _ qs).mem_iff.1 hp)) htexts
  exact (perm_insertionSort ParamLe ps).symm.trans
    (hsorted ▸ perm_insertionSort ParamLe qs)

theorem triggerText_inj {path path' : Bytes} {ps qs : List Param} (hn : 10 ∉ path)
    (hn' : 10 ∉ path') (h : triggerText path ps = triggerText path' qs) :
    path = path' ∧ signedQuery ps = signedQuery qs := by
  rw [triggerText, triggerText, append_assoc, append_assoc] at h
  exact append_cons_inj hn hn' (append_cancel_left h)

/-! ## Parameters with different names -/

/-- No two parameters have one name. -/
def Distinct (ps : List Param) : Prop := (ps.map (·.1)).Nodup

instance (ps : List Param) : Decidable (Distinct ps) := inferInstanceAs (Decidable (List.Nodup _))

variable {ps : List Param}

theorem find_eq_some_iff (hd : Distinct ps) {name v : Bytes} :
    find ps name = some v ↔ (name, v) ∈ ps := by
  induction ps with
  | nil => simp [find]
  | cons p ps ih =>
    obtain ⟨hp, hd⟩ := nodup_cons.1 hd
    rw [find_cons, mem_cons]
    split
    · rename_i hname
      subst hname
      have hno : (p.1, v) ∉ ps := fun hmem => hp (mem_map.2 ⟨_, hmem, rfl⟩)
      simp [hno, Prod.ext_iff, eq_comm]
    · rename_i hname
      rw [ih hd, or_iff_right fun h => hname (congrArg Prod.fst h).symm]

theorem find_eq_of_perm {ps qs : List Param} (hd : Distinct ps) (h : ps.Perm qs) (name : Bytes) :
    find ps name = find qs name := by
  have hd' : Distinct qs := (h.map _).nodup_iff.1 hd
  ext v
  rw [find_eq_some_iff hd, find_eq_some_iff hd', h.mem_iff]

theorem authParams_eq_of_perm {ps qs : List Param} (hd : Distinct ps) (h : ps.Perm qs) :
    authParams ps = authParams qs := by
  simp only [authParams, find_eq_of_perm hd h]

theorem perm_cons_remove {name v : Bytes} (h : find ps name = some v) :
    ps.Perm ((name, v) :: remove ps name) := by
  induction ps with
  | nil => cases h
  | cons p ps ih =>
    rw [find_cons] at h
    rw [remove_cons]
    split at h
    · rename_i hname
      rw [if_pos hname, ← hname, ← some.inj h]
    · rename_i hname
      rw [if_neg hname]
      exact ((ih h).cons p).trans (.swap _ _ _)

theorem remove_perm {ps qs : List Param} (hd : Distinct ps) (h : ps.Perm qs) (name : Bytes) :
    (remove ps name).Perm (remove qs name) := by
  refine Perm.eraseP _ ?_ h
  exact (pairwise_map.1 hd).imp fun hne ha hb =>
    hne ((of_decide_eq_true ha).trans (of_decide_eq_true hb).symm)

theorem distinct_remove (hd : Distinct ps) (name : Bytes) :
    Distinct (remove ps name) := hd.sublist (eraseP_sublist.map _)

theorem ne_nil_of_authParams {x : Bytes × Bytes} (h : authParams ps = some x) : ps ≠ [] := by
  rintro rfl
  cases h

def lowerSignature (p : Param) : Param :=
  if p.1 = ofString "auth_signature" then (p.1, toAsciiLowercase p.2) else p

/-- Two accepted sets of parameters with one signature: the same path and the same other
parameters. -/
theorem Accepted.eq_of_signature {path path' body body' : Bytes} {ps qs : List Param}
    {now now' : Nat} (hhmac : Injective (hmac secret)) (hn : 10 ∉ path) (hn' : 10 ∉ path')
    (hps : ∀ p ∈ ps, p.Plain) (hqs : ∀ p ∈ qs, p.Plain)
    (h : Accepted hmac md5 secret path ps body now)
    (h' : Accepted hmac md5 secret path' qs body' now')
    (hsig : (find ps (ofString "auth_signature")).map toAsciiLowercase =
      (find qs (ofString "auth_signature")).map toAsciiLowercase) : path = path' ∧
      (remove ps (ofString "auth_signature")).Perm (remove qs (ofString "auth_signature")) := by
  obtain ⟨ts, n, sum, hauth, -⟩ := h.auth
  obtain ⟨ts', n', sum', hauth', -⟩ := h'.auth
  obtain ⟨sig, hfind, hsign⟩ := h.signature
  obtain ⟨sig', hfind', hsign'⟩ := h'.signature
  rw [hfind, hfind', map_some, map_some, hsign, hsign'] at hsig
  obtain ⟨hpath, hquery⟩ := triggerText_inj hn hn' (sign_injective hhmac (some.inj hsig))
  rw [← authParams_remove] at hauth hauth'
  refine ⟨hpath, signedQuery_inj ?_ ?_ (ne_nil_of_authParams hauth) (ne_nil_of_authParams hauth')
    hquery⟩
  · exact fun p hp => hps p (mem_of_mem_eraseP hp)
  · exact fun p hp => hqs p (mem_of_mem_eraseP hp)

theorem Accepted.of_perm {path body : Bytes} {ps qs : List Param} {now : Nat} (hd : Distinct ps)
    (hperm : ps.Perm qs) (h : Accepted hmac md5 secret path ps body now) :
    Accepted hmac md5 secret path qs body now := by
  obtain ⟨hauth, sig, hsig, hsign⟩ := h
  have htext : ∀ name, signedQuery (remove ps name) = signedQuery (remove qs name) := fun name => by
    rw [signedQuery, insertionSort_eq_of_perm (remove_perm hd hperm name), signedQuery]
  rw [triggerText, htext] at hsign
  exact ⟨authParams_eq_of_perm hd hperm ▸ hauth, sig, find_eq_of_perm hd hperm _ ▸ hsig, hsign⟩

end

/-! ## What a signature binds -/

/-- A trigger request and the time at which it is checked. -/
structure Trigger where
  path : Bytes
  query : Option Bytes
  body : Bytes
  now : Nat

/-- `verify_trigger` of a request. -/
def Trigger.verify (hmac : Hmac) (md5 : Bytes → Bytes) (secret : Bytes) (r : Trigger) :
    Except TriggerRejected Unit := verifyTrigger hmac md5 secret r.path r.query r.body r.now

/-- Accepted requests with one signature are the same request, and a query may be reordered. -/
theorem trigger_binds {hmac : Hmac} {md5 : Bytes → Bytes} {secret : Bytes}
    (hhmac : Injective (hmac secret)) (hmd5 : Injective md5) :
    (∀ r r' : Trigger, 10 ∉ r.path → 10 ∉ r'.path →
      Distinct (params r.query) → Distinct (params r'.query) →
      r.verify hmac md5 secret = .ok () → r'.verify hmac md5 secret = .ok () →
      (find (params r.query) (ofString "auth_signature")).map toAsciiLowercase =
        (find (params r'.query) (ofString "auth_signature")).map toAsciiLowercase →
      r.path = r'.path ∧ r.body = r'.body ∧
        ((params r.query).map lowerSignature).Perm ((params r'.query).map lowerSignature) ∧
        find (params r.query) (ofString "auth_timestamp") =
          find (params r'.query) (ofString "auth_timestamp")) ∧
    ∀ (r : Trigger) (query : Option Bytes), Distinct (params r.query) →
      r.verify hmac md5 secret = .ok () →
      ((query.getD []).splitOn 38).Perm ((r.query.getD []).splitOn 38) →
      ({ r with query } : Trigger).verify hmac md5 secret = .ok () := by
  constructor
  · intro r r' hn hn' hd hd' hok hok' hsig
    have hacc := verifyTrigger_ok_iff.1 hok
    have hacc' := verifyTrigger_ok_iff.1 hok'
    obtain ⟨hpath, hperm⟩ := hacc.eq_of_signature hhmac hn hn' (fun _ => params_plain)
      (fun _ => params_plain) hacc' hsig
    have hrest := distinct_remove hd (ofString "auth_signature")
    refine ⟨hpath, ?_, ?_, ?_⟩
    · obtain ⟨ts, n, sum, hauth, hbody, -⟩ := hacc.auth
      obtain ⟨ts', n', sum', hauth', hbody', -⟩ := hacc'.auth
      have hsame := authParams_eq_of_perm hrest hperm
      rw [authParams_remove, authParams_remove, hauth, hauth'] at hsame
      obtain ⟨-, rfl⟩ := Prod.mk.inj (some.inj hsame)
      exact hmd5 (hex_injective (hbody.symm.trans hbody'))
    · obtain ⟨sig, hfind, -⟩ := hacc.signature
      obtain ⟨sig', hfind', -⟩ := hacc'.signature
      rw [hfind, hfind', map_some, map_some] at hsig
      have hhead : lowerSignature (ofString "auth_signature", sig) =
          lowerSignature (ofString "auth_signature", sig') := by
        simp [lowerSignature, some.inj hsig]
      refine ((perm_cons_remove hfind).map _).trans
        (.trans ?_ ((perm_cons_remove hfind').map _).symm)
      rw [map_cons, map_cons, hhead]
      exact (hperm.map _).cons _
    · have hts : ofString "auth_timestamp" ≠ ofString "auth_signature" := by decide
      have hsame := find_eq_of_perm hrest hperm (ofString "auth_timestamp")
      rwa [find_remove hts, find_remove hts] at hsame
  · intro r query hd hok hperm
    exact verifyTrigger_ok_iff.2
      ((verifyTrigger_ok_iff.1 hok).of_perm hd ((hperm.filter _).map _).symm)

/-- A request with the given parameters in front of its signature. -/
def signedTrigger (query : String) : Trigger :=
  { path := ofString "/apps"
    query := some (ofString query ++ ofString "&auth_signature=" ++ hex (ofString
      "POST\n/apps\nauth_key=k&auth_timestamp=5&auth_version=1&body_md5=6869"))
    body := ofString "hi"
    now := 5 }

/-- One signature over two orders of the query. -/
theorem trigger_binds_reordered :
    (signedTrigger "body_md5=6869&auth_key=k&auth_version=1&auth_timestamp=5").verify
        (fun _ m => m) id [] = .ok () ∧ find (params (signedTrigger
          "auth_key=k&auth_timestamp=5&auth_version=1&body_md5=6869").query)
        (ofString "auth_timestamp") = find (params (signedTrigger
          "body_md5=6869&auth_key=k&auth_version=1&auth_timestamp=5").query)
        (ofString "auth_timestamp") := by
  have hbinds := @trigger_binds (fun _ m => m) id [] injective_id injective_id
  have hok : (signedTrigger "auth_key=k&auth_timestamp=5&auth_version=1&body_md5=6869").verify
      (fun _ m => m) id [] = .ok () := by decide +kernel
  have hd : Distinct (params
      (signedTrigger "auth_key=k&auth_timestamp=5&auth_version=1&body_md5=6869").query) := by
    decide +kernel
  have hok' := hbinds.2 _
    (signedTrigger "body_md5=6869&auth_key=k&auth_version=1&auth_timestamp=5").query hd hok
    (by decide +kernel)
  refine ⟨hok', (hbinds.1 _ _ ?_ ?_ hd ?_ hok hok' ?_).2.2.2⟩
  all_goals decide

end Askr.Pusher
