import Askr.Policy.Query
import Askr.Rcache.Table

/-!
# Cache keys

`cache_policy.rs`: the key a request is cached under, and the key of the variant that the request's
own headers select once a response has said which of them matter. The first three fields of a key
are method, host and path with the normalised query; that is all `purge_url` and `ban_glob` read of
it (`keyParts_storedKey`).

What a request carries is what hyper lets through: header names are lower case, a header value has
no control bytes but tab, a URL has no NUL. The encoders and the choice between them are a parameter
(`Codec`).
-/

namespace Askr.Policy

open Bytes

/-! ## Requests -/

/-- `HeaderValue::from_bytes` admits the byte. -/
def admitted (b : UInt8) : Bool := b == 9 || (32 ≤ b && b != 127)

/-- A byte that `HeaderValue::to_str` lets pass. -/
def visible (b : UInt8) : Bool := b == 9 || (32 ≤ b && b < 127)

structure Header where
  name : Bytes
  value : Bytes
  lower : toAsciiLowercase name = name
  ok : value.all admitted = true

abbrev HeaderMap := List Header

/-- `get_all`: the values of a header, in order. -/
def getAll (h : HeaderMap) (name : Bytes) : List Bytes :=
  (h.filter (·.name = name)).map (·.value)

def toStr (v : Bytes) : Option Bytes := if v.all visible then some v else none

/-- `get(name).and_then(|v| v.to_str().ok())`. -/
def getStr (h : HeaderMap) (name : Bytes) : Option Bytes := (getAll h name).head?.bind toStr

structure Url where
  host : Bytes
  path : Bytes
  query : Option Bytes
  host_ok : 0 ∉ host
  path_ok : 0 ∉ path
  query_ok : ∀ q ∈ query, 0 ∉ q

/-- A request, as far as its key goes. -/
structure Request where
  method : Bytes
  url : Url
  headers : HeaderMap

inductive Encoding where
  | br
  | gzip
deriving DecidableEq

def Encoding.header : Encoding → Bytes
  | .br => ofString "br"
  | .gzip => ofString "gzip"

/-- What is left open of `compress.rs`: `negotiate` reads quality values as floats, and `compress`
calls the encoders. -/
structure Codec where
  negotiate : Bytes → Option Encoding
  compress : Encoding → Bytes → Option Bytes

/-- The parts of the configuration that a key depends on. -/
structure Config where
  cacheStripQuery : List Bytes
  cacheVaryUserAgent : Bool
  https : Bool
  codec : Codec

/-! ## The key of a request -/

def uaClass (ua : Bytes) : Bytes :=
  if ["Mobi", "Android", "iPhone", "iPad", "iPod"].any fun m =>
      ua.tails.any (ofString m).isPrefixOf then
    ofString "m"
  else ofString "d"

def requestScheme (headers : HeaderMap) (https : Bool) : Bytes :=
  if https || (getStr headers (ofString "x-forwarded-proto")).any
      (eqIgnoreAsciiCase · (ofString "https")) then ofString "https"
  else ofString "http"

def encodingField (cfg : Config) (headers : HeaderMap) : Bytes :=
  (((getStr headers (ofString "accept-encoding")).bind cfg.codec.negotiate).map
    Encoding.header).getD (ofString "id")

def deviceField (cfg : Config) (headers : HeaderMap) : Bytes :=
  if cfg.cacheVaryUserAgent then
    ((getStr headers (ofString "user-agent")).map uaClass).getD (ofString "d")
  else []

def pathQuery (cfg : Config) (url : Url) : Bytes :=
  let query := normalizeQuery (url.query.getD []) cfg.cacheStripQuery
  if query = [] then url.path else url.path ++ 63 :: query

def responseCacheKey (cfg : Config) (r : Request) : Bytes :=
  r.method ++ 0 :: (toAsciiLowercase r.url.host ++ 0 :: (pathQuery cfg r.url ++ 0 ::
    (encodingField cfg r.headers ++ 0 :: (deviceField cfg r.headers ++ 0 ::
      requestScheme r.headers cfg.https))))

/-! ## The key of a variant -/

/-- The names of a `Vary` text, lower case. -/
def varyNames (names : Bytes) : List Bytes :=
  ((names.splitOn 44).map fun s => toAsciiLowercase (trim s)).filter (· ≠ [])

/-- What a request says for a header: its readable lines, joined. -/
def joined (h : HeaderMap) (name : Bytes) : Bytes :=
  (ofString ", ").intercalate ((getAll h name).filterMap toStr)

def suffixPart (h : HeaderMap) (name : Bytes) : Bytes := name ++ 61 :: (joined h name ++ [Ns.SEP])

def varySuffix (names : Bytes) (h : HeaderMap) : Bytes :=
  (dedup (sort (varyNames names))).flatMap (suffixPart h)

def secondaryKey (primary names : Bytes) (h : HeaderMap) : Bytes :=
  primary ++ (0 :: ofString "vary" ++ 0 :: varySuffix names h)

/-! ## What `purge_url` reads of a key -/

theorem keyParts_eq {a b c : Bytes} (ha : 0 ∉ a) (hb : 0 ∉ b) (hc : 0 ∉ c) (rest : Bytes) :
    Rcache.keyParts (a ++ 0 :: (b ++ 0 :: (c ++ 0 :: rest))) = some (a, b, c) := by
  rw [Rcache.keyParts, List.splitOn_append_cons_self_of_not_mem ha,
    List.splitOn_append_cons_self_of_not_mem hb, List.splitOn_append_cons_self_of_not_mem hc]

theorem zero_notMem_lower {s : Bytes} (h : 0 ∉ s) : 0 ∉ toAsciiLowercase s := by
  intro hmem
  obtain ⟨b, hb, hb0⟩ := List.mem_map.1 hmem
  exact h (eq_of_lowerByte (by decide) hb0 ▸ hb)

theorem mem_normalizeQuery {query : Bytes} {strip : List Bytes} {b : UInt8}
    (hb : b ∈ normalizeQuery query strip) : b = 38 ∨ b ∈ query := by
  rcases mem_of_mem_intercalate hb with hb | ⟨p, hp, hb⟩
  · exact .inl (List.mem_singleton.1 hb)
  · have hkept := (orderedPairs_perm query strip).mem_iff.1 hp
    exact .inr (mem_of_mem_splitOn (List.mem_of_mem_filter (List.mem_of_mem_filter hkept)) hb)

theorem zero_notMem_pathQuery (cfg : Config) (url : Url) : 0 ∉ pathQuery cfg url := by
  have hquery : 0 ∉ url.query.getD [] := by
    cases hq : url.query with
    | none => exact List.not_mem_nil
    | some q => exact url.query_ok q hq
  rw [pathQuery]
  split
  · exact url.path_ok
  · intro hmem
    rcases List.mem_append.1 hmem with hmem | hmem
    · exact url.path_ok hmem
    · rcases List.mem_cons.1 hmem with h | hmem
      · cases h
      · rcases mem_normalizeQuery hmem with h | hmem
        · cases h
        · exact hquery hmem

/-- The keys a request may be stored under: its own, or that of a variant. -/
def storedKey (cfg : Config) (r : Request) : Option (Bytes × HeaderMap) → Bytes
  | none => responseCacheKey cfg r
  | some (names, h) => secondaryKey (responseCacheKey cfg r) names h

theorem keyParts_storedKey (cfg : Config) (r : Request) (hm : 0 ∉ r.method)
    (variant : Option (Bytes × HeaderMap)) : Rcache.keyParts (storedKey cfg r variant) =
      some (r.method, toAsciiLowercase r.url.host, pathQuery cfg r.url) := by
  have hkey := keyParts_eq hm (zero_notMem_lower r.url.host_ok) (zero_notMem_pathQuery cfg r.url)
  cases variant with
  | none => exact hkey _
  | some v =>
    rw [storedKey, secondaryKey, responseCacheKey]
    simp only [List.append_assoc, List.cons_append]
    exact hkey _

end Askr.Policy
