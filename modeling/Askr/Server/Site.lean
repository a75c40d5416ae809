import Askr.Server.Request

/-!
# The site of a background refresh

`handle` and `refresh_entry` select the site of a request by two different texts. They agree for
every list of sites exactly when the client sent the host as it is routed by (`refresh_site_iff`):
otherwise a wildcard for the routed host tells the two apart (`not_dot_suffix`).
-/

namespace Askr.Server

open Bytes Policy List

/-! ## What is in front of a port -/

/-- What `host_without_port` cuts off: nothing, what follows a bracket, or a port behind the only
colon. -/
theorem hostWithoutPort_cases {a : Bytes} (ha : trim a = a) : hostWithoutPort a = a ∨
      (∃ x y, a = x ++ 93 :: y ∧ 93 ∉ y ∧ hostWithoutPort a = x ++ [93]) ∨
      ∃ x y, a = x ++ 58 :: y ∧ 58 ∉ x ∧ y.all isDigit = true ∧ hostWithoutPort a = x := by
  rw [hostWithoutPort, ha]
  cases hb : cutLast 93 a with
  | some p =>
    obtain ⟨heq, hy⟩ := cutLast_eq_some hb
    exact .inr (.inl ⟨p.1, p.2, heq, hy, rfl⟩)
  | none =>
    cases hc : cutLast 58 a with
    | none => exact .inl rfl
    | some p =>
      simp only
      split
      · exact .inl rfl
      · rename_i hx
        split
        · rename_i hdigits
          exact .inr (.inr ⟨p.1, p.2, (cutLast_eq_some hc).1, hx, hdigits, rfl⟩)
        · exact .inl rfl

theorem not_dot_suffix {a : Bytes} (ha : trim a = a) :
    ¬ 46 :: toAsciiLowercase (hostWithoutPort a) <:+ a := by
  intro h
  have hlower : ∀ x : Bytes, (toAsciiLowercase x).length = x.length := fun x => by
    simp [toAsciiLowercase]
  rcases hostWithoutPort_cases ha with heq | ⟨x, y, hxy, hy, heq⟩ | ⟨x, y, hxy, hx, hy, heq⟩
  · have hlen := h.length_le
    rw [length_cons, hlower, heq] at hlen
    omega
  · have hlast : toAsciiLowercase (hostWithoutPort a) = toAsciiLowercase x ++ [93] := by
      rw [heq, toAsciiLowercase, map_append]
      rfl
    rw [hlast, ← cons_append] at h
    have hysuf : y <:+ a := ⟨x ++ [93], by rw [hxy]; simp⟩
    rcases suffix_or_suffix_of_suffix h hysuf with h' | h'
    · exact hy (h'.subset (by simp))
    · rcases suffix_concat_iff.1 h' with rfl | ⟨t, rfl, -⟩
      · have hlen := h.length_le
        simp only [hxy, length_append, length_cons, hlower, length_nil] at hlen
        omega
      · exact hy (by simp)
  · have hcolon : 58 :: y <:+ a := ⟨x, hxy.symm⟩
    rw [heq] at h
    rcases suffix_or_suffix_of_suffix h hcolon with h' | h'
    · rcases suffix_cons_iff.1 h' with h' | h'
      · cases h'
      · have hdot := all_eq_true.1 hy 46 (h'.subset (.head _))
        exact absurd hdot (by decide)
    · have hmem : (58 : UInt8) ∈ 46 :: toAsciiLowercase x := h'.subset (.head _)
      rw [mem_cons] at hmem
      obtain ⟨b, hb, hb58⟩ := mem_map.1 (hmem.resolve_left (by decide))
      exact hx (eq_of_lowerByte (by decide) hb58 ▸ hb)

theorem trim_authority (req : Req) : trim req.authority = req.authority := by
  rw [Req.authority, effectiveHost]
  split
  · rename_i v hv
    obtain ⟨hv, -⟩ := Option.filter_eq_some_iff.1 hv
    obtain ⟨w, -, rfl⟩ := Option.map_eq_some_iff.1 hv
    exact trim_trim w
  · cases ha : req.uri.authority with
    | none => rfl
    | some a =>
      refine trim_eq_self fun b hb => ?_
      have hgraphic := all_eq_true.1 (req.uri.authority_ok a ha) b hb
      simp only [graphic, Bool.and_eq_true, decide_eq_true_eq, UInt8.le_iff_toNat_le,
        UInt8.lt_iff_toNat_lt, UInt8.reduceToNat] at hgraphic
      simp only [isEdgeSpace, isSpace1, Bool.or_eq_false_iff, Bool.and_eq_false_iff,
        decide_eq_false_iff_not, beq_eq_false_iff_ne, ne_eq, UInt8.le_iff_toNat_le,
        ← UInt8.toNat_inj, UInt8.reduceToNat]
      omega

/-! ## Where the two agree -/

/-- A server with one site, for a host and everything below it. -/
def wildcardConfig (host : Bytes) : Config :=
  { cacheStripQuery := [], cacheVaryUserAgent := false, https := false
    codec := ⟨fun _ => none, fun _ _ => none⟩
    docroot := ofString "/srv/default", frontController := ofString "index.php"
    sites := [{ hosts := [ofString "*." ++ host], docroot := ofString "/srv/site",
                frontController := ofString "index.php" }]
    trustedProxies := [], cacheRules := [], cacheIgnoreCookies := [], listenPort := 8080 }

theorem hostMatches_wildcard {h host : Bytes} :
    hostMatches h (ofString "*." ++ host) = true ↔ h = host ∨ 46 :: host <:+ h := by
  have hstar : ofString "*." = [42, 46] := by decide
  rw [hostMatches, hstar, if_pos (by simp)]
  simp

theorem wildcardConfig_siteFor (host h : Bytes) : ((wildcardConfig host).siteFor h).1 =
    if hostMatches h (ofString "*." ++ host) then ofString "/srv/site"
    else ofString "/srv/default" := by
  rw [Config.siteFor, wildcardConfig]
  by_cases hm : hostMatches h (ofString "*." ++ host) <;> simp [hm]

/-- **When a refresh renders the same application.** The refresh of a request's entry uses the site
that the request was routed to, whatever sites there are, exactly when the request was sent to the
host it is routed by: in lower case, without a port. -/
theorem refresh_site_iff (req : Req) (key : Bytes) (peer : IpAddr) :
    (∀ cfg : Config, (spawnSwrRefresh cfg key req peer).site cfg = handleSite cfg req) ↔
      req.authority = req.host := by
  constructor
  · intro h
    have hsite := congrArg Prod.fst (h (wildcardConfig req.host))
    rw [spawnSwrRefresh_site, handleSite, wildcardConfig_siteFor, wildcardConfig_siteFor,
      if_pos (hostMatches_wildcard.2 (.inl rfl))] at hsite
    split at hsite
    · rename_i hauth
      exact (hostMatches_wildcard.1 hauth).resolve_right (not_dot_suffix (trim_authority req))
    · exact absurd hsite (by decide)
  · intro h cfg
    rw [spawnSwrRefresh_site, handleSite, h]

/-- A background refresh renders the application that the request was routed to. -/
def RefreshSameSite (cfg : Config) : Prop :=
  ∀ (req : Req) (key : Bytes) (peer : IpAddr),
    (spawnSwrRefresh cfg key req peer).site cfg = handleSite cfg req

def gateway : IpAddr := .v4 #v[10, 0, 0, 1]

/-- A request for `/` with a `Host` line. -/
def hostRequest (host : Bytes) (ok : host.all admitted = true) : Req :=
  { method := ofString "GET"
    uri := .ofPath (ofString "/") (by decide)
    headers := [⟨ofString "host", host, lower_host, ok⟩] }

/-- **A refresh renders the default site.** A request to `b.example:8080` is routed to the site of
`b.example`; the refresh of its entry looks for a site of the host `b.example:8080`, finds none, and
renders the default application into the entry. -/
theorem refresh_other_site : ¬ RefreshSameSite (wildcardConfig (ofString "b.example")) := by
  intro h
  have := h (hostRequest (ofString "b.example:8080") (by decide)) []
    gateway
  revert this
  decide

end Askr.Server
