import Askr.Server.Cgi

/-!
# What an untrusted peer cannot tell PHP

`build_request` reads the headers in five places: the host, the content type, the cookie, the chain
of `X-Forwarded-For` and the loop that makes `HTTP_*` variables of them. For a peer that is not a
trusted proxy none of the five looks at a forwarding header, at `Proxy` or at a name with an
underscore, so two requests that differ in those alone become the same request
(`buildRequest_said`).

For any peer, the variables have different names (`nodup_serverVars`), and the variable of a header
is the join of its lines (`lookup_serverVars`): a name without underscores can be read back from it.
-/

namespace Askr.Server

open Bytes Policy List

/-! ## One variable for each name -/

theorem names_addVar_of_mem {vars : Vars} {name : Bytes} (join value : Bytes)
    (h : name ∈ vars.names) : (addVar vars name join value).names = vars.names := by
  induction vars with
  | nil => cases h
  | cons p r ih =>
    rw [addVar]
    split
    · rfl
    · rename_i hk
      have hr : name ∈ Vars.names r := (mem_cons.1 h).resolve_left (Ne.symm hk)
      exact congrArg (p.1 :: ·) (ih hr)

theorem nodup_addVar {vars : Vars} (name join value : Bytes) (h : vars.names.Nodup) :
    (addVar vars name join value).names.Nodup := by
  by_cases hmem : name ∈ vars.names
  · rwa [names_addVar_of_mem join value hmem]
  · rw [addVar_of_notMem join value hmem, Vars.names, map_append, map_singleton,
      ← concat_eq_append]
    exact h.concat hmem

theorem nodup_addHeader {trusted : Bool} {vars : Vars} (line : Header) (h : vars.names.Nodup) :
    (addHeader trusted vars line).names.Nodup := by
  rw [addHeader]
  split
  · split
    · exact nodup_addVar _ _ _ h
    · exact h
  · exact h

variable (trusted : Bool)

theorem nodup_headers {vars : Vars} (headers : HeaderMap)
    (h : vars.names.Nodup) : (headers.foldl (addHeader trusted) vars).names.Nodup := by
  induction headers generalizing vars with
  | nil => exact h
  | cons line headers ih => exact ih (nodup_addHeader line h)

variable (around : Around) (ctx : Context)

theorem nodup_baseVars (req : Req) (body : Bytes) : (baseVars around ctx req body).names.Nodup := by
  have hall : (fixedNames ++ ([ofString "HTTPS"] ++
      ([ofString "CONTENT_TYPE"] ++ [ofString "CONTENT_LENGTH"]))).Nodup := by
    decide
  rw [names_baseVars]
  refine hall.sublist ((Sublist.refl _).append (.append ?_ (.append ?_ ?_)))
  · split <;> simp
  · cases getStr req.headers (ofString "content-type") <;> simp
  · split <;> simp

theorem isPrefixOf_httpName (name : Bytes) : (ofString "HTTP_").isPrefixOf (httpName name) = true :=
  isPrefixOf_iff_prefix.2 ⟨_, rfl⟩

theorem httpName_of_mem_baseVars {around : Around} {ctx : Context} {req : Req} {body name : Bytes}
    (h : httpName name ∈ (baseVars around ctx req body).names) :
    httpName name = httpName (ofString "host") := by
  have hmem : httpName name ∈ fixedNames ++
      [ofString "HTTPS", ofString "CONTENT_TYPE", ofString "CONTENT_LENGTH"] := by
    rw [mem_names_baseVars] at h
    simp only [mem_append, mem_cons, not_mem_nil, or_false]
    obtain h | ⟨-, h⟩ | ⟨-, h⟩ | ⟨-, h⟩ := h
    · exact .inl h
    · exact .inr (.inl h)
    · exact .inr (.inr (.inl h))
    · exact .inr (.inr (.inr h))
  have honly : ∀ k ∈ fixedNames ++
      [ofString "HTTPS", ofString "CONTENT_TYPE", ofString "CONTENT_LENGTH"],
      (ofString "HTTP_").isPrefixOf k = true → k = httpName (ofString "host") := by
    decide
  exact honly _ hmem (isPrefixOf_httpName name)

theorem underscore_notMem_of_pass {name join : Bytes} {trusted : Bool}
    (h : headerPolicy name trusted = .pass join) : 95 ∉ name := by
  intro hmem
  rw [headerPolicy] at h
  repeat' split at h
  all_goals contradiction

theorem httpName_ne {name name' : Bytes} (hlower : toAsciiLowercase name = name)
    (hlower' : toAsciiLowercase name' = name') (hname : 95 ∉ name) (hname' : 95 ∉ name')
    (hne : name ≠ name') : httpName name ≠ httpName name' :=
  fun h => hne (name_of_httpName (h := ⟨name, [], hlower, rfl⟩) hname h hlower' hname')

theorem headerPolicy_host : headerPolicy (ofString "host") trusted = .drop .authoritativeHost := by
  cases trusted <;> decide

theorem headerPolicy_forwardedFor : headerPolicy (ofString "x-forwarded-for") trusted =
      if trusted then .forwardedFor else .drop .untrustedForwardedFor := by
  cases trusted <;> decide

theorem httpName_ne_of_pass {name join : Bytes} {trusted : Bool}
    (hlower : toAsciiLowercase name = name) (hpass : headerPolicy name trusted = .pass join) :
    httpName name ≠ httpName (ofString "host") ∧
      httpName name ≠ httpName (ofString "x-forwarded-for") := by
  have hname := underscore_notMem_of_pass hpass
  constructor
  · refine httpName_ne hlower (by decide) hname (by decide) ?_
    rintro rfl
    rw [headerPolicy_host] at hpass
    cases hpass
  · refine httpName_ne hlower (by decide) hname (by decide) ?_
    rintro rfl
    rw [headerPolicy_forwardedFor] at hpass
    cases trusted <;> cases hpass

theorem forwardedFor_eq :
    ofString "HTTP_X_FORWARDED_FOR" = httpName (ofString "x-forwarded-for") := by
  decide

theorem forwardedFor_notMem (req : Req) (body : Bytes) (trusted : Bool) :
    ofString "HTTP_X_FORWARDED_FOR" ∉
      (req.headers.foldl (addHeader trusted) (baseVars around ctx req body)).names := by
  rw [forwardedFor_eq, mem_names_headers]
  rintro (h | ⟨line, -, ⟨⟨join, hpass⟩, -⟩, h⟩)
  · exact absurd (httpName_of_mem_baseVars h) (by decide)
  · exact (httpName_ne_of_pass line.lower hpass).2 h.symm

theorem nodup_serverVars (req : Req) (body : Bytes) :
    (serverVars around ctx req body).names.Nodup := by
  have hloop := nodup_headers (peerIsTrusted ctx.peer ctx.trustedProxies) req.headers
    (nodup_baseVars around ctx req body)
  rw [serverVars]
  split
  · rw [Vars.names, map_append, map_singleton, ← concat_eq_append]
    exact hloop.concat (forwardedFor_notMem around ctx req body _)
  · rwa [append_nil]

/-! ## The value of a variable -/

/-- What the loop makes of a variable when one more line of its header arrives. -/
def joinLine (join : Bytes) (found : Option Bytes) (value : Bytes) : Option Bytes :=
  some (match found with
    | some v => v ++ join ++ value
    | none => value)

theorem lookup_cons_of_ne {k k' v : Bytes} (vars : Vars) (h : k' ≠ k) :
    ((k, v) :: vars).lookup k' = vars.lookup k' := by
  rw [lookup_cons, beq_false_of_ne h]

theorem lookup_addVar (vars : Vars) (name join value k : Bytes) :
    (addVar vars name join value).lookup k =
      if k = name then joinLine join (vars.lookup name) value else vars.lookup k := by
  induction vars with
  | nil =>
    by_cases hk : k = name
    · rw [if_pos hk, hk, addVar, lookup_cons_self]
      rfl
    · rw [if_neg hk, addVar, lookup_cons_of_ne [] hk]
  | cons p r ih =>
    obtain ⟨n, v⟩ := p
    rw [addVar]
    split
    · rename_i hn
      subst hn
      by_cases hk : k = n
      · rw [if_pos hk, hk, lookup_cons_self, lookup_cons_self]
        rfl
      · rw [if_neg hk, lookup_cons_of_ne _ hk, lookup_cons_of_ne _ hk]
    · rename_i hn
      by_cases hk : k = n
      · rw [if_neg (hk ▸ hn), hk, lookup_cons_self, lookup_cons_self]
      · rw [lookup_cons_of_ne _ hk, ih, lookup_cons_of_ne _ (Ne.symm hn), lookup_cons_of_ne _ hk]

def texts (headers : HeaderMap) (name : Bytes) : List Bytes :=
  (getAll headers name).filterMap toStr

/-- **One turn of the loop**, seen from the variable of a header that passes. -/
theorem lookup_addHeader {trusted : Bool} {name join : Bytes} (vars : Vars) (line : Header)
    (hlower : toAsciiLowercase name = name) (hpass : headerPolicy name trusted = .pass join) :
    (addHeader trusted vars line).lookup (httpName name) =
      (texts [line] name).foldl (joinLine join) (vars.lookup (httpName name)) := by
  by_cases hname : line.name = name
  · rw [addHeader, hname, hpass]
    cases hv : toStr line.value with
    | some v => simp [texts, getAll, hname, hv, lookup_addVar]
    | none => simp [texts, getAll, hname, hv]
  · have htexts : texts [line] name = [] := by simp [texts, getAll, hname]
    rw [htexts, foldl_nil, addHeader]
    split
    · rename_i join' hline
      split
      · rw [lookup_addVar, if_neg]
        exact Ne.symm (httpName_ne line.lower hlower (underscore_notMem_of_pass hline)
          (underscore_notMem_of_pass hpass) hname)
      · rfl
    · rfl

theorem texts_cons (line : Header) (headers : HeaderMap) (name : Bytes) :
    texts (line :: headers) name = texts [line] name ++ texts headers name := by
  by_cases h : line.name = name
  · rw [texts, texts, texts, getAll, getAll, getAll, filter_cons_of_pos (by simpa using h),
      filter_cons_of_pos (by simpa using h), map_cons, map_cons,
      ← filterMap_append]
    rfl
  · simp [texts, getAll, h]

theorem lookup_headers {trusted : Bool} {name join : Bytes} (headers : HeaderMap) (vars : Vars)
    (hlower : toAsciiLowercase name = name) (hpass : headerPolicy name trusted = .pass join) :
    (headers.foldl (addHeader trusted) vars).lookup (httpName name) =
      (texts headers name).foldl (joinLine join) (vars.lookup (httpName name)) := by
  induction headers generalizing vars with
  | nil => rfl
  | cons line headers ih =>
    rw [foldl_cons, ih, lookup_addHeader vars line hlower hpass, texts_cons line headers,
      foldl_append]

theorem foldl_joinLine (join : Bytes) (values : List Bytes) : values.foldl (joinLine join) none =
      if values = [] then none else some (join.intercalate values) := by
  have hsome : ∀ (values : List Bytes) (v : Bytes),
      values.foldl (joinLine join) (some v) = some (join.intercalate (v :: values)) := by
    intro values
    induction values with
    | nil => intro v; simp [intercalate]
    | cons w values ih =>
      intro v
      rw [foldl_cons, joinLine, ih]
      cases values <;> simp [intercalate, intersperse]
  cases values with
  | nil => rfl
  | cons v values => exact hsome values v

theorem lookup_of_notMem {vars : Vars} {k : Bytes} (h : k ∉ vars.names) : vars.lookup k = none := by
  rw [lookup_eq_none_iff]
  intro p hp
  rw [bne_iff_ne]
  rintro rfl
  exact h (mem_map_of_mem hp)

/-- **The variable of a header that passes is the join of its lines.** -/
theorem lookup_serverVars (around : Around) (ctx : Context) (req : Req) (body : Bytes)
    {name join : Bytes} (hlower : toAsciiLowercase name = name)
    (hpass : headerPolicy name (peerIsTrusted ctx.peer ctx.trustedProxies) = .pass join) :
    (serverVars around ctx req body).lookup (httpName name) =
      if texts req.headers name = [] then none
      else some (join.intercalate (texts req.headers name)) := by
  have hne := httpName_ne_of_pass hlower hpass
  have hbase : (baseVars around ctx req body).lookup (httpName name) = none :=
    lookup_of_notMem fun h => hne.1 (httpName_of_mem_baseVars h)
  have hloop := lookup_headers req.headers (baseVars around ctx req body) hlower hpass
  rw [hbase, foldl_joinLine] at hloop
  rw [serverVars, lookup_append, hloop]
  have hlast : List.lookup (httpName name) (if req.headers.any fun h =>
      headerPolicy h.name (peerIsTrusted ctx.peer ctx.trustedProxies) = .forwardedFor then
        [(ofString "HTTP_X_FORWARDED_FOR",
          around.net.print (clientIpFrom around.net req.headers ctx.peer ctx.trustedProxies))]
      else []) = none := by
    split
    · exact lookup_cons_of_ne [] (forwardedFor_eq ▸ hne.2)
    · rfl
  rw [hlast, Option.or_none]

/-! ## An untrusted peer -/

/-- The names that are believed of a trusted proxy only, or of nobody. -/
def unheard (name : Bytes) : Bool :=
  isForwardingClaim name || name == ofString "proxy" || name.contains 95

/-- The lines of a request that are left when those are taken out. -/
def said (headers : HeaderMap) : HeaderMap := headers.filter fun line => !unheard line.name

variable {name : Bytes}

theorem headerPolicy_of_unheard (h : unheard name = true) (join : Bytes) :
    headerPolicy name false ≠ .pass join := by
  intro hpass
  have hmem := underscore_notMem_of_pass hpass
  rw [unheard, contains_eq_mem, decide_eq_false hmem, Bool.or_false, Bool.or_eq_true,
    beq_iff_eq] at h
  rw [headerPolicy] at hpass
  simp only [Bool.not_false, Bool.true_and] at hpass
  obtain hclaim | hproxy := h
  · repeat' split at hpass
    all_goals contradiction
  · repeat' split at hpass
    all_goals contradiction

theorem addHeader_of_unheard {line : Header} (vars : Vars) (h : unheard line.name = true) :
    addHeader false vars line = vars := by
  rw [addHeader]
  split
  · rename_i join hpass
    exact absurd hpass (headerPolicy_of_unheard h join)
  · rfl

variable (headers : HeaderMap)

theorem headers_said (vars : Vars) :
    (said headers).foldl (addHeader false) vars = headers.foldl (addHeader false) vars := by
  induction headers generalizing vars with
  | nil => rfl
  | cons line headers ih =>
    cases h : unheard line.name with
    | true =>
      rw [foldl_cons, addHeader_of_unheard vars h, ← ih, said, filter_cons_of_neg]
      · rfl
      · simp [h]
    | false =>
      rw [foldl_cons, ← ih, said, filter_cons_of_pos]
      · rfl
      · simp [h]

theorem getAll_said (h : unheard name = false) :
    getAll (said headers) name = getAll headers name := by
  rw [getAll, said, filter_filter, getAll]
  congr 1
  refine filter_congr fun line _ => ?_
  by_cases hname : line.name = name
  · simp [hname, h]
  · simp [hname]

theorem getStr_said (h : unheard name = false) :
    getStr (said headers) name = getStr headers name := by
  rw [getStr, getAll_said headers h, getStr]

theorem effectiveHost_said (uri : Uri) :
    effectiveHost (said headers) uri = effectiveHost headers uri := by
  rw [effectiveHost, getStr_said headers (by decide), effectiveHost]

theorem clientIpFrom_of_untrusted (net : NetText) (headers : HeaderMap) {peer : IpAddr}
    {trusted : List Cidr} (h : peerIsTrusted peer trusted = false) :
    clientIpFrom net headers peer trusted = peer := by
  rw [clientIpFrom, h, if_pos (by rfl)]

theorem headerPolicy_untrusted (name : Bytes) : headerPolicy name false ≠ .forwardedFor := by
  intro h
  rw [headerPolicy] at h
  repeat' split at h
  all_goals contradiction

section Untrusted

variable {around : Around} {ctx : Context} {req : Req} {body : Bytes}

theorem baseVars_said (hpeer : peerIsTrusted ctx.peer ctx.trustedProxies = false) :
    baseVars around ctx { req with headers := said req.headers } body =
      baseVars around ctx req body := by
  simp only [baseVars, effectiveHost_said, clientIpFrom_of_untrusted _ _ hpeer,
    getStr_said req.headers (show unheard (ofString "content-type") = false by decide)]

theorem serverVars_of_untrusted (hpeer : peerIsTrusted ctx.peer ctx.trustedProxies = false) :
    serverVars around ctx req body =
      req.headers.foldl (addHeader false) (baseVars around ctx req body) := by
  rw [serverVars, hpeer, if_neg, append_nil]
  simp [headerPolicy_untrusted]

theorem buildRequest_said (hpeer : peerIsTrusted ctx.peer ctx.trustedProxies = false) :
    buildRequest around ctx { req with headers := said req.headers } body =
      buildRequest around ctx req body := by
  rw [buildRequest, buildRequest, serverVars_of_untrusted hpeer, serverVars_of_untrusted hpeer,
    headers_said, baseVars_said hpeer]
  simp only [getAll_said req.headers (show unheard (ofString "cookie") = false by decide),
    getStr_said req.headers (show unheard (ofString "content-type") = false by decide)]

theorem lookup_headers_of_base {trusted : Bool} (headers : HeaderMap) (vars : Vars) {k : Bytes}
    (h : (ofString "HTTP_").isPrefixOf k = false) :
    (headers.foldl (addHeader trusted) vars).lookup k = vars.lookup k := by
  induction headers generalizing vars with
  | nil => rfl
  | cons line headers ih =>
    rw [foldl_cons, ih, addHeader]
    split
    · split
      · rw [lookup_addVar, if_neg]
        rintro rfl
        rw [isPrefixOf_httpName] at h
        cases h
      · rfl
    · rfl

theorem lookup_remoteAddr (hpeer : peerIsTrusted ctx.peer ctx.trustedProxies = false) :
    (serverVars around ctx req body).lookup (ofString "REMOTE_ADDR") =
      some (around.net.print ctx.peer) := by
  rw [serverVars_of_untrusted hpeer, lookup_headers_of_base _ _ (by decide), baseVars,
    clientIpFrom_of_untrusted _ _ hpeer]
  rfl

end Untrusted

/-- **The variables of a request.** Names occur once, a header that passes is the join of its lines,
and what an untrusted peer claims about others makes no difference. -/
theorem buildRequest_vars (around : Around) (ctx : Context) (req : Req) (body : Bytes) :
    let trusted := peerIsTrusted ctx.peer ctx.trustedProxies
    let vars := (buildRequest around ctx req body).serverVars
    vars.names.Nodup ∧
    (∀ line ∈ req.headers, ∀ join, headerPolicy line.name trusted = .pass join →
      vars.lookup (httpName line.name) =
        if texts req.headers line.name = [] then none
        else some (join.intercalate (texts req.headers line.name))) ∧
    (trusted = false →
      vars.lookup (ofString "REMOTE_ADDR") = some (around.net.print ctx.peer) ∧
      ∀ headers, said headers = said req.headers →
        buildRequest around ctx { req with headers } body = buildRequest around ctx req body) := by
  refine ⟨nodup_serverVars around ctx req body, ?_, ?_⟩
  · intro line _ join hpass
    exact lookup_serverVars around ctx req body line.lower hpass
  · intro hpeer
    refine ⟨lookup_remoteAddr hpeer, ?_⟩
    intro headers hsaid
    calc buildRequest around ctx { req with headers } body
        = buildRequest around ctx { req with headers := said headers } body :=
          (buildRequest_said hpeer).symm
      _ = buildRequest around ctx { req with headers := said req.headers } body := by rw [hsaid]
      _ = buildRequest around ctx req body := buildRequest_said hpeer

/-- A visitor without a proxy, on a server that trusts none. -/
def directContext : Context :=
  { docroot := ofString "/srv", script := ofString "/srv/index.php"
    scriptName := ofString "/index.php", peer := .v4 #v[192, 0, 2, 7], peerPort := 4000
    https := false, serverPort := 80, trustedProxies := [] }

/-- Addresses are printed by their octets, and no hop is read. -/
def plainAround : Around :=
  { net := ⟨fun | .v4 octets => octets.toList | .v6 octets => octets.toList, fun _ => none⟩
    protocol := ofString "HTTP/1.1", now := 0
    forDocroot := fun _ => ⟨List.replicate 16 48, by decide, by decide⟩ }

def cookieLines : HeaderMap :=
  [⟨ofString "cookie", ofString "a=1", by decide, by decide⟩,
    ⟨ofString "cookie", ofString "b=2", by decide, by decide⟩]

theorem slash_ok : (0 : UInt8) ∉ ofString "/" := by decide
theorem admitted_claim : (ofString "10.0.0.1").all admitted = true := by decide

/-- The request that sends them and claims another address. -/
def claimingReq : Req :=
  { method := ofString "GET", uri := Uri.ofPath (ofString "/") slash_ok
    headers := cookieLines ++
      [⟨ofString "x-forwarded-for", ofString "10.0.0.1", lower_forwardedFor, admitted_claim⟩] }

theorem buildRequest_claiming :
    (buildRequest plainAround directContext claimingReq []).serverVars.lookup
        (ofString "HTTP_COOKIE") = some (ofString "a=1; b=2") ∧
      buildRequest plainAround directContext { claimingReq with headers := cookieLines } [] =
        buildRequest plainAround directContext claimingReq [] := by
  obtain ⟨-, hjoin, huntrusted⟩ := buildRequest_vars plainAround directContext claimingReq []
  exact ⟨hjoin _ (mem_cons_self ..) (ofString "; ") (by decide),
    (huntrusted rfl).2 cookieLines rfl⟩

end Askr.Server
