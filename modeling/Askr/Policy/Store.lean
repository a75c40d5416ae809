import Askr.Policy.Key

/-!
# Storing and resolving a response

`maybe_store` and `resolve_cached` of `cache_policy.rs`. A response that opts in, or that a rule
opts in, is stored under the key of its request. When it says that it varies on a header the key
does not cover, what is stored under the key is an index that names the headers, and the response
goes under the key of the variant (`secondaryKey`). A lookup follows the index with the values of
its own request.

Each `store` and each lookup reads the clock for itself, so both functions take two times.
-/

namespace Askr.Policy

open Bytes Rcache

/-! ## The directive of a response -/

/-- `str::find`, as what is in front of the first occurrence and what is behind it. -/
def cut (needle : Bytes) : Bytes → Option (Bytes × Bytes)
  | [] => if needle = [] then some ([], []) else none
  | b :: r =>
    if needle.isPrefixOf (b :: r) then some ([], (b :: r).drop needle.length)
    else (cut needle r).map fun (front, rest) => (b :: front, rest)

/-- The separators `,`, `;` and space. -/
def isSeparator (b : UInt8) : Bool := b == 44 || b == 59 || b == 32

/-- `str::parse::<u64>`. -/
def parseU64 (s : Bytes) : Option Nat :=
  (match s with
    | 43 :: r => parseDigits r
    | r => parseDigits r).filter (· < U64)

def directiveSecs (v name : Bytes) : Nat :=
  ((cut name v).bind fun (_, rest) =>
    parseU64 (trim (rest.takeWhile fun b => !isSeparator b))).getD 0

structure Directive where
  ttl : Nat
  swr : Nat
  sie : Nat
  tags : List Bytes

def parseCacheDirective (v : Bytes) : Option Directive :=
  let (head, tagstr) := (cut (ofString "tags=") v).getD (v, [])
  ((head.splitOnP isSeparator).findSome? fun t => parseU64 (trim t)).map fun ttl =>
    { ttl
      swr := directiveSecs v (ofString "swr=")
      sie := max (directiveSecs v (ofString "stale-if-error=")) (directiveSecs v (ofString "sie="))
      tags := ((tagstr.splitOnP isSeparator).map trim).filter (· ≠ []) }

/-! ## Headers of a response -/

/-- `header_value`: the first value of a header. -/
def headerValue (headers : Headers) (name : Bytes) : Option Bytes :=
  (headers.find? fun (k, _) => eqIgnoreAsciiCase k name).map (·.2)

def storableHeader (name : Bytes) : Bool :=
  !(["set-cookie", "askr-cache", "content-length", "transfer-encoding", "content-encoding",
    "vary"].any fun h => eqIgnoreAsciiCase name (ofString h))

def esiRequested (headers : Headers) : Bool :=
  headers.any fun (k, v) => eqIgnoreAsciiCase k (ofString "askr-esi") &&
    (eqIgnoreAsciiCase (trim v) (ofString "on") || trim v == ofString "1")

def tokens (v : Bytes) : List Bytes := ((v.splitOn 44).map trim).filter (· ≠ [])

/-- Does the key cover a header of this name? -/
def covered (varyUa : Bool) (t : Bytes) : Bool :=
  eqIgnoreAsciiCase t (ofString "accept-encoding") ||
    (varyUa && eqIgnoreAsciiCase t (ofString "user-agent"))

def varyIsCoveredByKey (vary : Bytes) (varyUa : Bool) : Bool := (tokens vary).all (covered varyUa)

/-! ## Compression -/

def MIN_SIZE : Nat := 1024

def compressible (contentType : Bytes) : Bool :=
  let ct := trim (contentType.takeWhile (· ≠ 59))
  (ofString "text/").isPrefixOf ct ||
    (["application/json", "application/javascript", "application/xml", "application/rss+xml",
      "application/atom+xml", "application/manifest+json", "application/ld+json",
      "application/wasm", "image/svg+xml"].any fun t => ct == ofString t)

/-- `compress::maybe`. -/
def compressMaybe (codec : Codec) (body contentType acceptEncoding : Bytes) :
    Option (Encoding × Bytes) :=
  if body.length < MIN_SIZE || !compressible contentType then none
  else
    (codec.negotiate acceptEncoding).bind fun enc =>
      (codec.compress enc body).bind fun out =>
        if out.length < body.length then some (enc, out) else none

/-! ## `maybe_store` -/

structure Response where
  status : Nat
  headers : Headers
  body : Bytes

/-- The parts of a `[[cache.rule]]` that storing looks at. -/
structure CacheRule where
  ttl : Option Nat
  swr : Nat
  staleIfError : Nat

structure StoreArgs where
  key : Bytes
  resp : Response
  acceptEncoding : Bytes
  varyUa : Bool
  rule : Option CacheRule
  app : Ns.App
  requestHeaders : HeaderMap

inductive StoreVerdict where
  | stored (ttl swr staleIfError tags : Nat) (byRule : Bool) (variantOn : Option Bytes)
      (droppedSetCookie : Bool)
  | notStored (why : Bytes)

def StoreVerdict.isStored : StoreVerdict → Bool
  | .stored .. => true
  | .notStored _ => false

/-- The lifetimes and tags: a rule's lifetime wins over the response's, whose tags are kept. -/
def StoreArgs.directive (a : StoreArgs) : Option Directive :=
  let own := ((a.resp.headers.find? fun (k, _) => eqIgnoreAsciiCase k (ofString "askr-cache")).map
    (·.2)).bind parseCacheDirective
  match a.rule with
  | some { ttl := some ttl, swr, staleIfError } =>
    some { ttl, swr, sie := staleIfError, tags := (own.map (·.tags)).getD [] }
  | _ => own

/-- `app_vary`: the first `Vary` text, unless the key covers it. -/
def StoreArgs.appVary (a : StoreArgs) : Option Bytes :=
  ((headerValue a.resp.headers (ofString "vary")).map trim).filter fun v =>
    v ≠ [] && !varyIsCoveredByKey v a.varyUa

/-- The body as it is stored, and the encoding it has then. A page with fragments is left as it
is. -/
def StoreArgs.compressed (codec : Codec) (a : StoreArgs) : Option (Encoding × Bytes) :=
  compressMaybe codec a.resp.body
    ((headerValue a.resp.headers (ofString "content-type")).getD [])
    (if esiRequested a.resp.headers then [] else a.acceptEncoding)

/-- The `Vary` that is stored with the response. -/
def StoreArgs.storedVary (codec : Codec) (a : StoreArgs) : List Bytes :=
  (if (a.compressed codec).isSome then [ofString "Accept-Encoding"] else []) ++
    (if a.varyUa then [ofString "User-Agent"] else []) ++ (a.appVary.map tokens).getD []

def StoreArgs.storedHeaders (codec : Codec) (a : StoreArgs) : Headers :=
  a.resp.headers.filter (fun (k, _) => storableHeader k) ++
    ((a.compressed codec).map fun (enc, _) => (ofString "content-encoding", enc.header)).toList ++
    (if a.storedVary codec = [] then []
      else [(ofString "vary", (ofString ", ").intercalate (a.storedVary codec))])

/-- What is stored, with the lifetimes and tags of the directive. -/
def StoreArgs.page (a : StoreArgs) (d : Directive) (status : Nat) (headers : Headers)
    (body : Bytes) : Page :=
  { status, headers, body, ttl := d.ttl, swr := d.swr, sie := d.sie
    tags := d.tags.map (a.app.prefixBytes ++ ·), app := some a.app }

def VARY_INDEX_HEADER : Bytes := ofString "askr-vary-index"

/-- The index under the primary key. -/
def StoreArgs.indexPage (a : StoreArgs) (d : Directive) (names : Bytes) : Page :=
  a.page d 0 [(VARY_INDEX_HEADER, names)] []

/-- The response as it is stored. -/
def StoreArgs.entryPage (codec : Codec) (a : StoreArgs) (d : Directive) : Page :=
  a.page d a.resp.status (a.storedHeaders codec)
    (((a.compressed codec).map (·.2)).getD a.resp.body)

/-- The key the response itself is stored under. -/
def StoreArgs.entryKey (a : StoreArgs) : Bytes :=
  match a.appVary with
  | none => a.key
  | some names => secondaryKey a.key names a.requestHeaders

/-- Why the response is not stored, or the directive it is stored by. -/
def StoreArgs.refuse (a : StoreArgs) : Except Bytes Directive :=
  if a.resp.status ≠ 200 then
    .error (ofString "only 200 responses are stored, and this was " ++ natBytes a.resp.status)
  else
    match a.directive with
    | none =>
      .error (ofString ("the response has no Askr-Cache header, and no [[cache.rule]] with" ++
        " a ttl matches this path — caching is opt-in, per response or per path"))
    | some d =>
      if a.appVary.any fun v => (v.splitOn 44).any fun t => trim t == ofString "*" then
        .error (ofString ("the response says `Vary: *` — never the same twice — so it cannot be" ++
          " shared"))
      else
        match (headerValue a.resp.headers (ofString "content-encoding")).map trim with
        | some e =>
          if e ≠ [] ∧ eqIgnoreAsciiCase e (ofString "identity") = false then
            .error (ofString "the application compressed the body itself (Content-Encoding: " ++
              e ++
              ofString ("); Askr stores bodies it can compress per client, so leave compression" ++
                " to Askr"))
          else .ok d
        | none => .ok d

/-- The verdict once the response was given to `store`. -/
def StoreArgs.verdict (codec : Codec) (a : StoreArgs) (d : Directive) (ok : Bool) : StoreVerdict :=
  if ok then
    .stored d.ttl d.swr d.sie d.tags.length (a.rule.any (·.ttl.isSome)) a.appVary
      (headerValue a.resp.headers (ofString "set-cookie")).isSome
  else
    .notStored (ofString "it is too large for a cache slot (" ++
      natBytes (a.entryPage codec d).body.length ++ ofString " bytes of body as stored)")

def maybeStore (codec : Codec) (hasher : Hasher) (c : Cache) (a : StoreArgs) (now now' : Nat) :
    Cache × StoreVerdict :=
  match a.refuse with
  | .error why => (c, .notStored why)
  | .ok d =>
    let c₁ := match a.appVary with
      | none => c
      | some names => (store hasher c a.key (a.indexPage d names) now).1
    let (c₂, ok) := store hasher c₁ a.entryKey (a.entryPage codec d) now'
    (c₂, a.verdict codec d ok)

/-! ## `resolve_cached` -/

def isVaryIndex (x : Cached) : Bool :=
  x.status = 0 && (headerValue x.headers VARY_INDEX_HEADER).isSome

/-- What is used to fetch an entry. -/
inductive Fetch where
  | get
  | peek
  | staleOnError
deriving DecidableEq

/-- The function of `rcache` that fetches. -/
def Fetch.run (hasher : Hasher) (f : Fetch) (c : Cache) (key : Bytes) (now : Nat) :
    Cache × Option Cached :=
  match f with
  | .get => Rcache.get hasher c key now
  | .peek => Rcache.peek hasher c key now
  | .staleOnError => Rcache.staleOnError hasher c key now

def resolveCached (hasher : Hasher) (f : Fetch) (c : Cache) (primary : Bytes) (h : HeaderMap)
    (now now' : Nat) : Cache × Option (Cached × Bool) :=
  match f.run hasher c primary now with
  | (c₁, none) => (c₁, none)
  | (c₁, some first) =>
    if !isVaryIndex first then (c₁, some (first, false))
    else
      match headerValue first.headers VARY_INDEX_HEADER with
      | none => (c₁, none)
      | some names =>
        match f.run hasher c₁ (secondaryKey primary names h) now' with
        | (c₂, none) => (c₂, none)
        | (c₂, some entry) => (c₂, if isVaryIndex entry then none else some (entry, true))

end Askr.Policy
