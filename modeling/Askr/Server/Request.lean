import Askr.Policy.Store
import Mathlib.Data.Nat.Digits.Lemmas
import Mathlib.Tactic.Ring

/-!
# Requests, as the server sees them

What `handle` and `refresh_entry` read of a request and of the configuration before PHP is asked:
the peer and whether it is trusted (`trust.rs`), the host (`cgi.rs`), the site that serves it
(`Config::site_for`), whether the response cache is asked for it at all, and under which key, and
the request that a background refresh is made of.

`handle` routes by the authority with the port cut off and in lower case; `spawn_swr_refresh` hands
the authority as it was sent to `refresh_entry`, which routes by that.
-/

namespace Askr.Server

open Bytes Policy Option

/-! ## Addresses -/

inductive IpAddr where
  | v4 (octets : Vector UInt8 4)
  | v6 (octets : Vector UInt8 16)
deriving DecidableEq

def IpAddr.bits : IpAddr → Nat
  | .v4 _ => 32
  | .v6 _ => 128

/-- An entry of `trusted_proxies`. `parse_cidr` refuses a prefix longer than the address. -/
structure Cidr where
  net : IpAddr
  bits : Nat
  bits_le : bits ≤ net.bits

/-- `masked`: the first `bits` bits. -/
def masked (octets : Bytes) (bits : Nat) : Bytes :=
  octets.mapIdx fun i b =>
    let keep := min (bits - i * 8) 8
    if keep = 0 then 0 else b &&& UInt8.ofNat (0xFF <<< (8 - keep))

def cidrContains (c : Cidr) (ip : IpAddr) : Bool :=
  match c.net, ip with
  | .v4 n, .v4 a => masked n.toList c.bits == masked a.toList c.bits
  | .v6 n, .v6 a => masked n.toList c.bits == masked a.toList c.bits
  | _, _ => false

def peerIsTrusted (peer : IpAddr) (trusted : List Cidr) : Bool :=
  !trusted.isEmpty && trusted.any fun c => cidrContains c peer

theorem cidrContains_self (c : Cidr) : cidrContains c c.net = true := by
  cases h : c.net <;> simp [cidrContains, h]

def IpAddr.octets : IpAddr → Bytes
  | .v4 o => o.toList
  | .v6 o => o.toList

/-- The octets read as one big-endian number. -/
def number (octets : Bytes) : Nat := Nat.ofDigits 256 (octets.reverse.map UInt8.toNat)

theorem number_cons (b : UInt8) (r : Bytes) :
    number (b :: r) = b.toNat * 2 ^ (8 * r.length) + number r := by
  rw [number, List.reverse_cons, List.map_append, Nat.ofDigits_append, Nat.pow_mul]
  simp [number, Nat.mul_comm, Nat.add_comm]

theorem number_lt (r : Bytes) : number r < 2 ^ (8 * r.length) := by
  have h := Nat.ofDigits_lt_base_pow_length (b := 256) (l := r.reverse.map UInt8.toNat)
    (by decide) (by simpa using fun b _ => b.toNat_lt)
  rwa [List.length_map, List.length_reverse, show 256 = 2 ^ 8 from rfl, ← Nat.pow_mul] at h

theorem number_inj {r s : Bytes} (hlen : r.length = s.length) : number r = number s ↔ r = s := by
  refine ⟨fun h => ?_, congrArg number⟩
  have h' := Nat.ofDigits_inj_of_len_eq (b := 256) (by decide) (by simpa using hlen)
    (by simpa using fun b _ => b.toNat_lt) (by simpa using fun b _ => b.toNat_lt) h
  exact List.reverse_injective ((List.map_injective_iff.2 fun _ _ => UInt8.toNat_inj.1) h')

theorem toNat_and_shift (b : UInt8) (k : Nat) :
    (b &&& UInt8.ofNat (0xFF <<< k)).toNat = b.toNat / 2 ^ k * 2 ^ k := by
  refine Nat.eq_of_testBit_eq fun i => ?_
  have hlt : b.toNat.testBit i = true → i < 8 := fun h =>
    (Nat.pow_lt_pow_iff_right (by decide)).1 ((Nat.ge_two_pow_of_testBit h).trans_lt b.toNat_lt)
  rw [UInt8.toNat_and, UInt8.toNat_ofNat', Nat.testBit_and, Nat.testBit_mod_two_pow,
    Nat.testBit_shiftLeft, show 0xFF = 2 ^ 8 - 1 from rfl, Nat.testBit_two_pow_sub_one,
    Nat.testBit_mul_two_pow, Nat.testBit_div_two_pow]
  grind

theorem masked_cons (b : UInt8) (r : Bytes) (bits : Nat) : ∃ c : UInt8,
    masked (b :: r) bits = c :: masked r (bits - 8) ∧
      c.toNat = b.toNat / 2 ^ (8 - bits) * 2 ^ (8 - bits) := by
  refine ⟨_, by simp [masked, List.mapIdx_cons, Nat.add_mul, Nat.sub_sub, Nat.add_comm 8]; rfl, ?_⟩
  have hk : 8 - min bits 8 = 8 - bits := by omega
  split
  · rw [show bits = 0 by omega, Nat.div_eq_of_lt b.toNat_lt]
    simp
  · rw [toNat_and_shift, hk]

theorem number_masked (r : Bytes) {bits : Nat} (h : bits ≤ 8 * r.length) : number (masked r bits) =
      number r / 2 ^ (8 * r.length - bits) * 2 ^ (8 * r.length - bits) := by
  induction r generalizing bits with
  | nil => simp [masked, number]
  | cons b r ih =>
    obtain ⟨c, hc, hval⟩ := masked_cons b r bits
    have hlen : (masked r (bits - 8)).length = r.length := by simp [masked]
    rw [List.length_cons, Nat.mul_succ] at h ⊢
    rw [hc, number_cons, number_cons, hlen, ih (by omega), hval]
    obtain h8 | h8 := Nat.lt_or_ge bits 8
    · rw [show bits - 8 = 0 by omega, Nat.sub_zero, Nat.div_eq_of_lt (number_lt r),
        Nat.add_sub_assoc h8.le (8 * r.length), Nat.pow_add, ← Nat.div_div_eq_div_mul,
        Nat.mul_comm b.toNat, Nat.mul_add_div (Nat.two_pow_pos _), Nat.div_eq_of_lt (number_lt r),
        Nat.add_zero]
      ring
    · obtain ⟨j, hj⟩ := Nat.exists_eq_add_of_le (show bits - 8 ≤ 8 * r.length by omega)
      rw [Nat.sub_eq_zero_of_le h8, show 8 * r.length + 8 - bits = j by omega,
        show 8 * r.length - (bits - 8) = j by omega, hj, Nat.pow_add, ← Nat.mul_assoc b.toNat,
        Nat.add_comm (b.toNat * _ * _), Nat.add_mul_div_right _ _ (Nat.two_pow_pos _), Nat.pow_zero,
        Nat.div_one]
      ring

theorem masked_eq_iff {r s : Bytes} (hlen : r.length = s.length) {bits : Nat}
    (h : bits ≤ 8 * r.length) : masked r bits = masked s bits ↔
      number r / 2 ^ (8 * r.length - bits) = number s / 2 ^ (8 * r.length - bits) := by
  rw [← number_inj (by simp [masked, hlen]), number_masked r h, number_masked s (hlen ▸ h), ← hlen,
    Nat.mul_left_inj (Nat.two_pow_pos _).ne']

/-- The first `bits` bits, as a number. -/
def IpAddr.first (ip : IpAddr) (bits : Nat) : Nat := number ip.octets / 2 ^ (ip.bits - bits)

theorem cidrContains_iff (c : Cidr) (ip : IpAddr) : cidrContains c ip = true ↔
    c.net.bits = ip.bits ∧ c.net.first c.bits = ip.first c.bits := by
  obtain ⟨net, bits, hbits⟩ := c
  rcases net with n | n <;> rcases ip with a | a <;>
    simp only [cidrContains, IpAddr.bits, IpAddr.first, IpAddr.octets, beq_iff_eq] at hbits ⊢
  · simpa using masked_eq_iff (r := n.toList) (s := a.toList) (by simp) (by simpa using hbits)
  · simp
  · simp
  · simpa using masked_eq_iff (r := n.toList) (s := a.toList) (by simp) (by simpa using hbits)

theorem first_of_le {ip : IpAddr} {bits bits' : Nat} (hle : bits' ≤ bits) (h : bits ≤ ip.bits) :
    ip.first bits' = ip.first bits / 2 ^ (bits - bits') := by
  rw [IpAddr.first, IpAddr.first, Nat.div_div_eq_div_mul, ← Nat.pow_add,
    show ip.bits - bits + (bits - bits') = ip.bits - bits' by omega]

/-- Containment is equality of the first bits, so a longer prefix contains no more. -/
theorem cidrContains_first_bits (c : Cidr) (ip : IpAddr) :
    (cidrContains c ip = true ↔ c.net.bits = ip.bits ∧ c.net.first c.bits = ip.first c.bits) ∧
    ∀ c' : Cidr, c'.net = c.net → c'.bits ≤ c.bits → cidrContains c ip = true →
      cidrContains c' ip = true := by
  refine ⟨cidrContains_iff c ip, fun c' hnet hle h => ?_⟩
  obtain ⟨hfam, heq⟩ := (cidrContains_iff c ip).1 h
  refine (cidrContains_iff c' ip).2 ⟨hnet ▸ hfam, ?_⟩
  rw [hnet, first_of_le hle c.bits_le, heq, ← first_of_le hle (hfam ▸ c.bits_le)]

/-! ## Configuration and requests -/

/-- A `[[site]]`. -/
structure Site where
  hosts : List Bytes
  docroot : Bytes
  frontController : Bytes

/-- A `[[cache.rule]]`. -/
structure CacheRule extends Policy.CacheRule where
  path : Bytes
  action : Option Bytes
  force : Bool

/-- The parts of the server's configuration that routing and caching read. -/
structure Config extends Policy.Config where
  docroot : Bytes
  frontController : Bytes
  sites : List Site
  trustedProxies : List Cidr
  cacheRules : List CacheRule
  cacheIgnoreCookies : List Bytes
  listenPort : Nat

/-- A printable ASCII byte other than the space. -/
def graphic (b : UInt8) : Bool := 33 ≤ b && b < 127

/-- `hyper::Uri`. The authority is printable, and nothing in it is a NUL. -/
structure Uri where
  authority : Option Bytes
  path : Bytes
  query : Option Bytes
  authority_ok : ∀ a ∈ authority, a.all graphic = true
  path_ok : 0 ∉ path
  query_ok : ∀ q ∈ query, 0 ∉ q

def Uri.ofPath (path : Bytes) (path_ok : 0 ∉ path) : Uri :=
  { authority := none, path, query := none, authority_ok := by simp, path_ok, query_ok := by simp }

/-- `hyper::Request`, without a body. -/
structure Req where
  method : Bytes
  uri : Uri
  headers : HeaderMap

theorem lower_host : toAsciiLowercase (ofString "host") = ofString "host" := by decide

/-- `builder.header(name, value)`: refused when the value cannot stand in a header. -/
def headerLine (name value : Bytes) (lower : toAsciiLowercase name = name) : Option Header :=
  if h : value.all admitted = true then some ⟨name, value, lower, h⟩ else none

/-! ## Hosts -/

/-- `effective_host`: the first `Host` line, else the authority of the URI. -/
def effectiveHost (headers : HeaderMap) (uri : Uri) : Option Bytes :=
  match ((getStr headers (ofString "host")).map trim).filter (· ≠ []) with
  | some h => some h
  | none => uri.authority

/-- What is in front of the last `c` and what is behind it. -/
def cutLast (c : UInt8) : Bytes → Option (Bytes × Bytes)
  | [] => none
  | b :: r =>
    match cutLast c r with
    | some (front, rest) => some (b :: front, rest)
    | none => if b = c then some ([], r) else none

def hostWithoutPort (authority : Bytes) : Bytes :=
  let a := trim authority
  match cutLast 93 a with
  | some (front, _) => front ++ [93]
  | none =>
    match cutLast 58 a with
    | none => a
    | some (front, port) => if 58 ∈ front then a else if port.all isDigit then front else a

def hostMatches (host pattern : Bytes) : Bool :=
  if (ofString "*.").isPrefixOf pattern then
    host == pattern.drop 2 || (46 :: pattern.drop 2).isSuffixOf host
  else eqIgnoreAsciiCase host pattern

/-- `Config::site_for`: the document root and front controller for a host. -/
def Config.siteFor (cfg : Config) (host : Bytes) : Bytes × Bytes :=
  match cfg.sites.find? fun s => s.hosts.any (hostMatches host) with
  | some s => (s.docroot, s.frontController)
  | none => (cfg.docroot, cfg.frontController)

/-- The authority a request was sent to, empty when it has none. -/
def Req.authority (req : Req) : Bytes := (effectiveHost req.headers req.uri).getD []

/-- The host `handle` routes and keys by. -/
def Req.host (req : Req) : Bytes := toAsciiLowercase (hostWithoutPort req.authority)

/-- The site `handle` selects. -/
def handleSite (cfg : Config) (req : Req) : Bytes × Bytes := cfg.siteFor req.host

/-! ## Cacheable requests -/

def CacheRule.isPass (r : CacheRule) : Bool := r.action == some (ofString "pass")

/-- `cache_rule_for`: the first rule whose glob matches the path. -/
def Config.cacheRuleFor (cfg : Config) (path : Bytes) : Option CacheRule :=
  cfg.cacheRules.find? fun r => Rcache.globMatch r.path path

/-- Does a rule keep the path out of the cache? -/
def Config.passes (cfg : Config) (path : Bytes) : Bool :=
  (cfg.cacheRuleFor path).any CacheRule.isPass

def cookiesIgnorable (header : Bytes) (ignore : List Bytes) : Bool :=
  !ignore.isEmpty && (header.splitOn 59).all fun c =>
    let name := trim (c.takeWhile (· ≠ 61))
    name.isEmpty || ignore.any fun p => nameMatches p name

def carriesIdentity (req : Req) (ignoreCookies : List Bytes) : Bool :=
  !(getAll req.headers (ofString "authorization")).isEmpty ||
    !(getAll req.headers (ofString "proxy-authorization")).isEmpty ||
    (getAll req.headers (ofString "cookie")).any fun v =>
      !(toStr v).any fun c => cookiesIgnorable c ignoreCookies

/-- `cacheable` of `handle`, with the cache enabled and outside of a replay. -/
def Config.cacheable (cfg : Config) (req : Req) : Bool :=
  let rule := cfg.cacheRuleFor req.uri.path
  !rule.any CacheRule.isPass &&
    (req.method == ofString "GET" || req.method == ofString "HEAD") &&
    (!carriesIdentity req cfg.cacheIgnoreCookies || rule.any (·.force))

/-- The request as its key sees it, under the given host. -/
def Req.keyed (req : Req) (host : Bytes) (host_ok : 0 ∉ host) : Request :=
  { method := req.method
    url := { host, path := req.uri.path, query := req.uri.query, host_ok
             path_ok := req.uri.path_ok, query_ok := req.uri.query_ok }
    headers := req.headers }

/-! ## The bytes of a host -/

theorem cutLast_eq_none {c : UInt8} {s : Bytes} (h : cutLast c s = none) : c ∉ s := by
  induction s with
  | nil => simp
  | cons b r ih =>
    rw [cutLast] at h
    cases hr : cutLast c r with
    | some p => simp [hr] at h
    | none =>
      have hb : b ≠ c := by simpa [hr] using h
      simpa [Ne.symm hb] using ih hr

theorem cutLast_eq_some {c : UInt8} {s front rest : Bytes} (h : cutLast c s = some (front, rest)) :
    s = front ++ c :: rest ∧ c ∉ rest := by
  induction s generalizing front with
  | nil => cases h
  | cons b r ih =>
    rw [cutLast] at h
    cases hr : cutLast c r with
    | some p =>
      simp only [hr, some.injEq, Prod.mk.injEq] at h
      obtain ⟨rfl, rfl⟩ := h
      obtain ⟨heq, hrest⟩ := ih hr
      exact ⟨congrArg (b :: ·) heq, hrest⟩
    | none =>
      simp only [hr] at h
      split at h
      · rename_i hb
        cases h
        exact ⟨by rw [hb]; rfl, cutLast_eq_none hr⟩
      · cases h

theorem mem_of_mem_hostWithoutPort {a : Bytes} {b : UInt8} (h : b ∈ hostWithoutPort a) : b ∈ a := by
  refine mem_of_mem_trim ?_
  rw [hostWithoutPort] at h
  cases hb : cutLast 93 (trim a) with
  | some p =>
    simp only [hb] at h
    rw [(cutLast_eq_some hb).1]
    simp only [List.mem_append, List.mem_cons] at h ⊢
    grind
  | none =>
    simp only [hb] at h
    cases hc : cutLast 58 (trim a) with
    | none => simpa only [hc] using h
    | some p =>
      simp only [hc] at h
      split at h
      · exact h
      · split at h
        · rw [(cutLast_eq_some hc).1]
          exact List.mem_append_left _ h
        · exact h

theorem Req.zero_notMem_host (req : Req) : 0 ∉ req.host := by
  intro h
  obtain ⟨b, hb, hb0⟩ := List.mem_map.1 h
  obtain rfl : b = 0 := eq_of_lowerByte (by decide) hb0
  have hmem := mem_of_mem_hostWithoutPort hb
  rw [Req.authority, effectiveHost] at hmem
  split at hmem
  · rename_i v hv
    obtain ⟨hv, -⟩ := filter_eq_some_iff.1 hv
    obtain ⟨w, hw, rfl⟩ := map_eq_some_iff.1 hv
    obtain ⟨line, -, hline⟩ := bind_eq_some_iff.1 hw
    rw [toStr] at hline
    split at hline
    · rename_i hvis
      cases hline
      exact absurd (List.all_eq_true.1 hvis 0 (mem_of_mem_trim hmem)) (by decide)
    · cases hline
  · cases ha : req.uri.authority with
    | none => simp [ha] at hmem
    | some a =>
      simp only [ha, getD_some] at hmem
      exact absurd (List.all_eq_true.1 (req.uri.authority_ok a ha) 0 hmem) (by decide)

/-- `response_cache_key` of a request that `handle` looks up. -/
def Config.cacheKey (cfg : Config) (req : Req) : Bytes :=
  responseCacheKey cfg.toConfig (req.keyed req.host req.zero_notMem_host)

/-! ## The background refresh -/

structure Refresh where
  key : Bytes
  method : Bytes
  uri : Uri
  host : Bytes
  acceptEncoding : Bytes
  userAgent : Bytes
  peer : IpAddr

/-- `spawn_swr_refresh`: what the refresh of a request's key is started with. -/
def spawnSwrRefresh (cfg : Config) (key : Bytes) (req : Req) (peer : IpAddr) : Refresh :=
  { key, peer
    method := req.method
    uri := req.uri
    host := req.authority
    acceptEncoding := (getStr req.headers (ofString "accept-encoding")).getD []
    userAgent :=
      if cfg.cacheVaryUserAgent then (getStr req.headers (ofString "user-agent")).getD [] else [] }

/-- The site `refresh_entry` renders with. -/
def Refresh.site (r : Refresh) (cfg : Config) : Bytes × Bytes := cfg.siteFor r.host

/-- A header line that is left out when its value is empty. -/
def optionalLine (name value : Bytes) (lower : toAsciiLowercase name = name) :
    Option (List Header) :=
  if value = [] then some [] else (headerLine name value lower).map fun h => [h]

/-- The request `refresh_entry` builds. -/
def Refresh.parts (r : Refresh) : Option Req :=
  (headerLine (ofString "host") r.host lower_host).bind fun host =>
    (optionalLine (ofString "accept-encoding") r.acceptEncoding (by decide)).bind fun encoding =>
      (optionalLine (ofString "user-agent") r.userAgent (by decide)).map fun agent =>
        { method := r.method, uri := r.uri, headers := host :: (encoding ++ agent) }

theorem spawnSwrRefresh_site (cfg cfg' : Config) (key : Bytes) (req : Req) (peer : IpAddr) :
    (spawnSwrRefresh cfg key req peer).site cfg' = cfg'.siteFor req.authority := rfl

end Askr.Server
