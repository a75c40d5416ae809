import Askr.Server.Cgi
import Askr.Server.Site

/-!
# The scheme of a key and the scheme PHP is told

The key of a request has the scheme in it, which `request_scheme` reads from `X-Forwarded-Proto`
whoever sent it. PHP is told the scheme by the `HTTPS` variable, which the configuration sets, and
by `HTTP_X_FORWARDED_PROTO`, which the header policy lets through from a trusted proxy only; a
background refresh has no such header at all.

So two renderings of one key may be told different schemes, as soon as there is a trusted proxy, TLS
ends in front of the server, and some path may be cached (`scheme_keyed_iff`).
-/

namespace Askr.Server

open Bytes Policy List

/-- Is PHP told that the request came over TLS? -/
def toldHttps (vars : Vars) : Bool :=
  vars.any (fun p => p.1 == ofString "HTTPS") ||
    vars.any fun p => p.1 == ofString "HTTP_X_FORWARDED_PROTO" &&
      eqIgnoreAsciiCase p.2 (ofString "https")

/-! ## Renderings -/

/-- `Path::join`. -/
def joinPath (a b : Bytes) : Bytes :=
  if a = [] ∨ [47].isPrefixOf b then b else if [47].isSuffixOf a then a ++ b else a ++ 47 :: b

/-- The context `handle` and `refresh_entry` build a request in. -/
def Config.context (cfg : Config) (site : Bytes × Bytes) (peer : IpAddr) (peerPort : Nat) :
    Context :=
  { docroot := site.1, script := joinPath site.1 site.2, scriptName := 47 :: site.2, peer, peerPort
    https := cfg.https, serverPort := cfg.listenPort, trustedProxies := cfg.trustedProxies }

/-- A way for a response to get under the key of a request: PHP renders the request itself, or the
refresh of its entry. -/
inductive Render where
  | live (req : Req) (peer : IpAddr) (port : Nat) (body : Bytes)
  | refresh (req : Req) (peer : IpAddr) (port : Nat)

/-- The request whose key it is. -/
def Render.req : Render → Req
  | .live req _ _ _ | .refresh req _ _ => req

/-- The variables PHP is given, if the request could be built. -/
def Render.vars (cfg : Config) (around : Around) : Render → Option Vars
  | .live req peer port body =>
    some (serverVars around (cfg.context (handleSite cfg req) peer port) req body)
  | .refresh req peer port =>
    let r := spawnSwrRefresh cfg (cfg.cacheKey req) req peer
    r.parts.map fun parts => serverVars around (cfg.context (r.site cfg) peer port) parts []

/-- **The scheme in the key is the scheme PHP rendered for.** Two renderings that are stored under
one key are told the same. -/
def SchemeKeyed (cfg : Config) : Prop :=
  ∀ (r r' : Render) (around around' : Around) (vars vars' : Vars),
    cfg.cacheable r.req = true → cfg.cacheable r'.req = true →
    cfg.cacheKey r.req = cfg.cacheKey r'.req →
    r.vars cfg around = some vars → r'.vars cfg around' = some vars' →
      toldHttps vars = toldHttps vars'

/-! ## What PHP is told -/

section
variable {around : Around} {ctx : Context} {req : Req} {body : Bytes}

theorem httpName_ne_https (name : Bytes) : httpName name ≠ ofString "HTTPS" := by
  intro h
  have h4 := congrArg (fun l : Bytes => l[4]?) h
  have hhttp : ofString "HTTP_" = [72, 84, 84, 80, 95] := by decide
  rw [httpName, hhttp] at h4
  exact absurd h4 (by simp; decide)

theorem mem_names_serverVars {k : Bytes} (hk : k ∈ (serverVars around ctx req body).names) :
    k ∈ (baseVars around ctx req body).names ∨
      (∃ h ∈ req.headers, Becomes (peerIsTrusted ctx.peer ctx.trustedProxies) h ∧
        k = httpName h.name) ∨ k = ofString "HTTP_X_FORWARDED_FOR" := by
  rw [serverVars, Vars.names, map_append, mem_append] at hk
  rcases hk with hk | hk
  · exact (mem_names_headers.1 hk).imp_right .inl
  · split at hk
    · exact .inr (.inr (by simpa using hk))
    · cases hk

theorem names_serverVars_of_base {k : Bytes} (hk : k ∈ (baseVars around ctx req body).names) :
    k ∈ (serverVars around ctx req body).names := by
  rw [serverVars, Vars.names, map_append, mem_append]
  exact .inl (mem_names_headers.2 (.inl hk))

theorem toldHttps_of_https (h : ctx.https = true) :
    toldHttps (serverVars around ctx req body) = true := by
  have hmem : ofString "HTTPS" ∈ (serverVars around ctx req body).names :=
    names_serverVars_of_base (mem_names_baseVars.2 (.inr (.inl ⟨h, rfl⟩)))
  obtain ⟨p, hp, hname⟩ := mem_map.1 hmem
  rw [toldHttps, Bool.or_eq_true]
  exact .inl (any_eq_true.2 ⟨p, hp, by simp [hname]⟩)

theorem https_notMem (h : ctx.https = false) :
    ofString "HTTPS" ∉ (serverVars around ctx req body).names := by
  intro hk
  rcases mem_names_serverVars hk with hk | ⟨l, -, -, hl⟩ | hk
  · rcases mem_names_baseVars.1 hk with hk | ⟨hk, -⟩ | ⟨-, hk⟩ | ⟨-, hk⟩
    · simp [fixedNames, ofString_inj] at hk
    · rw [h] at hk
      cases hk
    all_goals simp [ofString_inj] at hk
  · exact httpName_ne_https _ hl.symm
  · simp [ofString_inj] at hk

theorem proto_notMem_base :
    ofString "HTTP_X_FORWARDED_PROTO" ∉ (baseVars around ctx req body).names := by
  intro hk
  rcases mem_names_baseVars.1 hk with hk | ⟨-, hk⟩ | ⟨-, hk⟩ | ⟨-, hk⟩
  all_goals simp [fixedNames, ofString_inj] at hk

theorem proto_header
    (hk : ofString "HTTP_X_FORWARDED_PROTO" ∈ (serverVars around ctx req body).names) :
    peerIsTrusted ctx.peer ctx.trustedProxies = true ∧
      ∃ h ∈ req.headers, h.name = ofString "x-forwarded-proto" := by
  rcases mem_names_serverVars hk with hk | ⟨l, hl, hb, hvar⟩ | hk
  · exact absurd hk proto_notMem_base
  · have hname : l.name = ofString "x-forwarded-proto" := by
      refine name_of_httpName hb.no_underscore (hvar.symm.trans ?_) (by decide) (by decide)
      decide
    refine ⟨?_, l, hl, hname⟩
    obtain ⟨⟨join, hpass⟩, -⟩ := hb
    rw [hname] at hpass
    cases ht : peerIsTrusted ctx.peer ctx.trustedProxies with
    | true => rfl
    | false =>
      rw [ht] at hpass
      have hdrop : headerPolicy (ofString "x-forwarded-proto") false =
          .drop .untrustedForwarding := by decide
      rw [hdrop] at hpass
      cases hpass
  · simp [ofString_inj] at hk

theorem toldHttps_eq_false {vars : Vars} (h : ofString "HTTPS" ∉ vars.names)
    (h' : ofString "HTTP_X_FORWARDED_PROTO" ∉ vars.names) : toldHttps vars = false := by
  rw [toldHttps, Bool.or_eq_false_iff, any_eq_false, any_eq_false]
  refine ⟨fun p hp hname => h ?_, fun p hp hname => h' ?_⟩
  · exact mem_map.2 ⟨p, hp, by simpa using hname⟩
  · exact mem_map.2 ⟨p, hp, (by simpa using hname : _ ∧ _).1⟩

theorem toldHttps_of_proto {line : Header}
    (ht : peerIsTrusted ctx.peer ctx.trustedProxies = true) (hreq : req.headers = [line])
    (hname : line.name = ofString "x-forwarded-proto") (hvalue : line.value = ofString "https") :
    toldHttps (serverVars around ctx req body) = true := by
  have hpass : headerPolicy line.name true = .pass (ofString ", ") := by
    rw [hname]
    decide
  have hstr : toStr line.value = some (ofString "https") := by
    rw [hvalue]
    decide
  have hvar : httpName line.name = ofString "HTTP_X_FORWARDED_PROTO" := by
    rw [hname]
    decide
  have hmem : (ofString "HTTP_X_FORWARDED_PROTO", ofString "https") ∈
      serverVars around ctx req body := by
    simp only [serverVars, hreq, foldl_cons, foldl_nil, addHeader, ht, hpass, hstr, hvar,
      addVar_of_notMem _ _ proto_notMem_base]
    simp
  rw [toldHttps, Bool.or_eq_true]
  exact .inr (any_eq_true.2 ⟨_, hmem, by decide⟩)

end

theorem toldHttps_render {cfg : Config} {r : Render} {around : Around} {vars : Vars}
    (h : cfg.https = true ∨ cfg.trustedProxies = []) (hv : r.vars cfg around = some vars) :
    toldHttps vars = cfg.https := by
  obtain ⟨ctx, req, body, rfl, hhttps, htrusted⟩ : ∃ ctx req body,
      vars = serverVars around ctx req body ∧ ctx.https = cfg.https ∧
        ctx.trustedProxies = cfg.trustedProxies := by
    cases r with
    | live req peer port body =>
      cases hv
      exact ⟨_, _, _, rfl, rfl, rfl⟩
    | refresh req peer port =>
      obtain ⟨parts, -, rfl⟩ := Option.map_eq_some_iff.1 hv
      exact ⟨_, _, _, rfl, rfl, rfl⟩
  cases hs : cfg.https with
  | true => exact toldHttps_of_https (hhttps.trans hs)
  | false =>
    refine toldHttps_eq_false (https_notMem (hhttps.trans hs)) fun hproto => ?_
    obtain ⟨ht, -⟩ := proto_header hproto
    rw [htrusted, h.resolve_left (by simp [hs])] at ht
    cases ht

/-! ## When the two agree -/

/-- What a proxy in front of the server sends: a request for the path that came over TLS. -/
def proxied (path : Bytes) (path_ok : 0 ∉ path) : Req :=
  { method := ofString "GET"
    uri := .ofPath path path_ok
    headers := [⟨ofString "x-forwarded-proto", ofString "https", by decide, by decide⟩] }

theorem cacheable_proxied {cfg : Config} {path : Bytes} (path_ok : 0 ∉ path)
    (h : cfg.passes path = false) : cfg.cacheable (proxied path path_ok) = true := by
  have hanon : carriesIdentity (proxied path path_ok) cfg.cacheIgnoreCookies = false := by
    have hnone : ∀ name ∈ ["authorization", "proxy-authorization", "cookie"].map ofString,
        getAll (proxied path path_ok).headers name = [] := by
      intro name hname
      have hne : ofString "x-forwarded-proto" ≠ name := by
        rintro rfl
        simp [ofString_inj] at hname
      simp [getAll, proxied, hne]
    rw [carriesIdentity, hnone _ (by simp), hnone _ (by simp), hnone _ (by simp)]
    rfl
  rw [Config.passes] at h
  rw [Config.cacheable, hanon]
  simp only [proxied, Uri.ofPath, h]
  rfl

theorem parts_proxied (cfg : Config) (key path : Bytes) (path_ok : 0 ∉ path) (peer : IpAddr) :
    (spawnSwrRefresh cfg key (proxied path path_ok) peer).parts =
      some { proxied path path_ok with headers := [⟨ofString "host", [], by decide, rfl⟩] } := by
  have hhost : (proxied path path_ok).authority = [] := by
    rw [Req.authority, effectiveHost]
    rfl
  have hnone : ∀ name, name ≠ ofString "x-forwarded-proto" →
      getStr (proxied path path_ok).headers name = none := fun name hname => by
    simp [getStr, getAll, proxied, Ne.symm hname]
  rw [Refresh.parts, spawnSwrRefresh, hhost,
    hnone (ofString "accept-encoding") (by simp [ofString_inj]),
    hnone (ofString "user-agent") (by simp [ofString_inj])]
  simp [headerLine, optionalLine, proxied]

/-- Behind a trusted proxy, the request that came over TLS and the refresh of its entry are told
different schemes. -/
theorem not_schemeKeyed {cfg : Config} {path : Bytes} (hhttps : cfg.https = false)
    (htrusted : cfg.trustedProxies ≠ []) (hnul : 0 ∉ path) (hpass : cfg.passes path = false) :
    ¬ SchemeKeyed cfg := by
  intro h
  obtain ⟨c, cs, hcs⟩ := exists_cons_of_ne_nil htrusted
  have htrust : peerIsTrusted c.net cfg.trustedProxies = true := by
    simp [peerIsTrusted, hcs, cidrContains_self]
  let around : Around :=
    { net := ⟨fun _ => [], fun _ => none⟩, protocol := [], now := 0
      forDocroot := fun _ => ⟨replicate 16 48, by decide, by decide⟩ }
  have hcache := cacheable_proxied hnul hpass
  have hsame := h (.live (proxied path hnul) c.net 0 []) (.refresh (proxied path hnul) c.net 0)
    around around _ _ hcache hcache rfl rfl
    (by rw [Render.vars, parts_proxied]; rfl)
  rw [toldHttps_of_proto htrust rfl rfl rfl, toldHttps_eq_false (https_notMem hhttps)] at hsame
  · cases hsame
  · intro hproto
    obtain ⟨-, line, hline, hname⟩ := proto_header hproto
    rw [mem_singleton.1 hline] at hname
    simp [ofString_inj] at hname

/-- **When the scheme in the key is the one PHP rendered for.** Exactly when TLS ends in this
server, or there is no trusted proxy, or the rules keep every path out of the cache. -/
theorem scheme_keyed_iff (cfg : Config) :
    SchemeKeyed cfg ↔ cfg.https = true ∨ cfg.trustedProxies = [] ∨
      ∀ path : Bytes, 0 ∉ path → cfg.passes path = true := by
  constructor
  · intro h
    by_contra hno
    obtain ⟨hhttps, htrusted, path, hnul, hpass⟩ : cfg.https = false ∧ cfg.trustedProxies ≠ [] ∧
        ∃ path : Bytes, 0 ∉ path ∧ cfg.passes path = false := by
      simpa using hno
    exact not_schemeKeyed hhttps htrusted hnul hpass h
  · rintro h r r' around around' vars vars' hc - - hv hv'
    rcases or_assoc.2 h with h | hpass
    · rw [toldHttps_render h hv, toldHttps_render h hv']
    · have hno := hpass r.req.uri.path r.req.uri.path_ok
      rw [Config.passes] at hno
      rw [Config.cacheable, hno] at hc
      simp at hc

/-- A server behind a proxy at `10.0.0.1`. -/
def proxiedConfig : Config :=
  { wildcardConfig (ofString "a.example") with
    trustedProxies := [{ net := gateway, bits := 32, bits_le := Nat.le_refl _ }] }

/-- **A refresh renders the other scheme.** Behind a trusted proxy that ends TLS, the page of a
request that came over TLS is stored under a key that says so, and its refresh, which has no
`X-Forwarded-Proto` line, is rendered as plain HTTP into the same entry. -/
theorem scheme_not_keyed : ¬ SchemeKeyed proxiedConfig := by
  have hpass : proxiedConfig.passes (ofString "/") = false := by decide
  exact not_schemeKeyed rfl (by simp [proxiedConfig]) (by decide) hpass

end Askr.Server
