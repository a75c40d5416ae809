import Askr.Policy.Vary
import Askr.Server.Esi
import Askr.Server.Scheme

/-!
# From a request to a response

`handle` from the point where the response cache is asked, with everything it calls: the hit, the
copy that is served while PHP is failing, the follower that waits for a leader, the rendering that
is stored, and the fragments that a page includes. `refresh_entry` is the other visitor of the
cache.

What is left open is in `Env`: the clock, PHP, the rate limiter, who leads, what is answered before
the cache is asked, and what other workers do to the cache before every step. The state remembers
what was read and stored, for whom, and which fragments were asked for. The last section compares
the branches that turn an entry into a response (`assembled_iff`).
-/

namespace Askr.Server

open Bytes Policy Rcache State List

/-! ## Responses -/

/-- A response: its body before content coding, and the coding that was applied. -/
structure HttpResponse where
  status : Nat
  headers : Headers
  content : Bytes
  coded : Option (Encoding × Bytes)

inductive Reply where
  | stream (status : Nat) (headers : Headers)
  | buffered (resp : Response)
  | failed (why : Bytes)

/-- `StatusCode::from_u16(..).unwrap_or(OK)`. -/
def statusCode (s : Nat) : Nat := if 100 ≤ s ∧ s < 1000 then s else 200

def text (status : Nat) (msg : Bytes) : HttpResponse :=
  { status, headers := [(ofString "content-type", ofString "text/plain; charset=utf-8")]
    content := msg, coded := none }

/-- What is said when hyper does not take the headers. -/
def BAD_RESPONSE : Bytes := ofString "askr: bad response"

/-- A header that is for the server itself, or that hyper sets. -/
def internalHeader (name : Bytes) : Bool :=
  ["content-length", "transfer-encoding", "askr-cache", "askr-esi"].any fun h =>
    eqIgnoreAsciiCase name (ofString h)

/-! ## Surroundings -/

/-- What the model leaves open. What depends on the moment takes the number of the step. -/
structure Env where
  hasher : Hasher
  codec : Codec
  around : Around
  /-- Does hyper take these header lines? -/
  admits : Headers → Bool
  /-- `str::parse::<Uri>`. -/
  parseUri : Bytes → Option Uri
  /-- `rcache::enabled`. -/
  enabled : Bool
  clock : Nat → Nat
  /-- What other workers do to the cache. -/
  others : Nat → List Call
  php : Nat → PhpRequest → Reply
  /-- `verify::replaying`. -/
  replaying : Nat → Bool
  /-- `ratelimit_check`: the refusal, if there is one. -/
  limited : Nat → Req → IpAddr → Option HttpResponse
  /-- PURGE and BAN, redirects, WebSockets, events and static files. -/
  early : Nat → Req → Option HttpResponse
  /-- `saint_active`. -/
  saint : Nat → Bool
  /-- Does `rcache::begin` make the request the leader of the key? -/
  leads : Nat → Bytes → Bool
  /-- Is the leader of the key done before the follower gives up? -/
  leaderEnds : Nat → Bytes → Bool

/-- `build_response` and `finish_body`. -/
def buildResponse (env : Env) (resp : Response) (state : Option Bytes) (acceptEncoding : Bytes) :
    HttpResponse :=
  let kept := resp.headers.filter fun (k, _) => !internalHeader k
  let contentType := ((kept.filter fun (k, _) =>
    eqIgnoreAsciiCase k (ofString "content-type")).getLast?.map (·.2)).getD []
  let headers := kept ++ (state.map fun s => (ofString "X-Askr-Cache", s)).toList
  let coded := compressMaybe env.codec resp.body contentType acceptEncoding
  let headers := headers ++ match coded with
    | some (enc, _) =>
      [(ofString "content-encoding", enc.header), (ofString "vary", ofString "Accept-Encoding")]
    | none => []
  if env.admits headers then
    { status := statusCode resp.status, headers, content := resp.body, coded }
  else text 500 BAD_RESPONSE

def streamResponse (env : Env) (status : Nat) (headers : Headers) : HttpResponse :=
  let kept := headers.filter fun (k, _) => !internalHeader k
  if env.admits kept then
    { status := statusCode status, headers := kept, content := [], coded := none }
  else text 500 (ofString "askr: bad stream response")

def cachedResponse (env : Env) (c : Cached) : HttpResponse :=
  let state := if c.errorOnly then "STALE-ERROR" else if c.stale then "STALE" else "HIT"
  let headers := c.headers ++ [(ofString "X-Askr-Cache", ofString state)]
  if env.admits headers then
    { status := statusCode c.status, headers, content := c.body, coded := none }
  else text 500 BAD_RESPONSE

/-- The response of `stale_error_fallback`. -/
def staleErrorResponse (env : Env) (c : Cached) : HttpResponse :=
  let r := cachedResponse env c
  { r with
    headers := r.headers.filter (fun (k, _) => !eqIgnoreAsciiCase k (ofString "x-askr-cache")) ++
      [(ofString "x-askr-cache", ofString "STALE-ERROR")] }

/-! ## The state -/

/-- For whom the cache is asked. -/
inductive Route where
  | client
  | fragment
  | refresh
deriving DecidableEq

/-- A response that was read from the cache for a path. -/
structure Read where
  route : Route
  path : Bytes
  key : Bytes
  entry : Cached

/-- A response that was stored in the cache for a path. -/
structure Stored where
  route : Route
  path : Bytes

/-- A fragment that the cache was asked for. -/
structure Fragment where
  path : Bytes
  key : Bytes

/-- The cache and the refreshes that were started; and what has happened: the calls on the cache,
the fragments that were asked for, what was read and what was stored. -/
structure St where
  cache : Cache
  tick : Nat
  pending : List Refresh
  calls : List Call
  asked : List Fragment
  reads : List Read
  stored : List Stored

/-- The state of a server that starts. -/
def St.init (slots : Nat) : St :=
  { cache := .init slots, tick := 0, pending := [], calls := [], asked := [], reads := []
    stored := [] }

abbrev Serve := StateM St

/-- The next step: other workers may do something first. -/
def next (env : Env) : Serve Nat := fun st =>
  (st.tick,
    { st with
      cache := Run.runs (Call.run env.codec env.hasher) st.cache (env.others st.tick)
      calls := st.calls ++ env.others st.tick
      tick := st.tick + 1 })

def time (env : Env) : Serve Nat := do
  let t ← next env
  pure (env.clock t)

def peekCall (key : Bytes) (now : Nat) : Call :=
  .other (.peek key now) (by intro k p n h; cases h)

/-- `resolve_cached` at the given times. -/
def resolveAt (env : Env) (f : Fetch) (path key : Bytes) (h : HeaderMap) (now now' : Nat) :
    Serve (Option (Cached × Bool)) := fun st =>
  let (cache, found) := resolveCached env.hasher f st.cache key h now now'
  (found,
    { st with
      cache
      calls := st.calls ++
        zipWith peekCall (keysTried env.hasher f st.cache key h now) [now, now']
      reads := st.reads ++ (found.map fun (c, _) => ⟨.client, path, key, c⟩).toList })

/-- `resolve_cached`, for a client. -/
def resolve (env : Env) (f : Fetch) (path key : Bytes) (h : HeaderMap) :
    Serve (Option (Cached × Bool)) := do
  let now ← time env
  let now' ← time env
  resolveAt env f path key h now now'

/-- `rcache::get` at the given time, for a fragment. -/
def getAt (env : Env) (path key : Bytes) (now : Nat) : Serve (Option Cached) := fun st =>
  let (cache, found) := Rcache.get env.hasher st.cache key now
  (found,
    { st with
      cache
      calls := st.calls ++ [peekCall key now]
      asked := st.asked ++ [⟨path, key⟩]
      reads := st.reads ++ (found.map fun c => ⟨.fragment, path, key, c⟩).toList })

/-- `maybe_store` at the given times. -/
def storeAt (env : Env) (route : Route) (path : Bytes) (a : StoreArgs) (now now' : Nat) :
    Serve Unit := fun st =>
  let (cache, verdict) := maybeStore env.codec env.hasher st.cache a now now'
  ((),
    { st with
      cache
      calls := st.calls ++ [.index a now, .entry a now']
      stored := st.stored ++ if verdict.isStored then [⟨route, path⟩] else [] })

/-- `maybe_store`, for a response of the path. -/
def keep (env : Env) (route : Route) (path : Bytes) (a : StoreArgs) : Serve Unit := do
  let now ← time env
  let now' ← time env
  storeAt env route path a now now'

def runPhp (env : Env) (request : PhpRequest) : Serve Reply := do
  let t ← next env
  pure (env.php t request)

/-! ## Fragments -/

/-- A request of a client, with where it came from. -/
structure Incoming where
  req : Req
  peer : IpAddr
  port : Nat
  body : Bytes

/-- The `Accept-Encoding` of the client. -/
def Incoming.acceptEncoding (inc : Incoming) : Bytes :=
  (getStr inc.req.headers (ofString "accept-encoding")).getD []

/-- The request for a fragment, if there can be one. -/
def fragmentRequest (env : Env) (host src : Bytes) : Option Req :=
  if !safeSrc src then none
  else
    (env.parseUri src).bind fun uri =>
      (headerLine (ofString "host") host lower_host).map fun line =>
        { method := ofString "GET", uri, headers := [line] }

def Config.fragmentKey (cfg : Config) (page : Req) (req : Req) : Bytes :=
  responseCacheKey cfg.toConfig (req.keyed page.host page.zero_notMem_host)

/-- What `esi_fragment` does when the cache has nothing for it. -/
def renderFragment (env : Env) (cfg : Config) (page : Incoming) (src : Bytes) (req : Req) :
    Serve (Option Bytes) := do
  let site := handleSite cfg page.req
  let reply ← runPhp env (buildRequest env.around (cfg.context site page.peer page.port) req [])
  match reply with
  | .buffered resp =>
    if resp.status = 200 then
      if env.enabled then do
        keep env .fragment req.uri.path
          { key := cfg.fragmentKey page.req req, resp, acceptEncoding := []
            varyUa := cfg.cacheVaryUserAgent
            rule := (cfg.cacheRuleFor (src.takeWhile (· ≠ 63))).map (·.toCacheRule)
            app := env.around.forDocroot site.1, requestHeaders := req.headers }
        pure (some resp.body)
      else pure (some resp.body)
    else pure none
  | _ => pure none

def esiFragment (env : Env) (cfg : Config) (page : Incoming) (src : Bytes) : Serve (Option Bytes) :=
  match fragmentRequest env page.req.host src with
  | none => pure none
  | some req => do
    let t ← next env
    if (env.limited t req page.peer).isSome then pure none
    else if env.enabled then do
      let now ← time env
      let hit ← getAt env req.uri.path (cfg.fragmentKey page.req req) now
      match hit with
      | some c => pure (some c.body)
      | none => renderFragment env cfg page src req
    else renderFragment env cfg page src req

/-! ## `handle` -/

/-- `spawn_swr_refresh`. -/
def spawn (env : Env) (cfg : Config) (key : Bytes) (inc : Incoming) : Serve Unit := do
  let t ← next env
  if env.leads t key then
    modify fun st => { st with pending := st.pending ++ [spawnSwrRefresh cfg key inc.req inc.peer] }
  else pure ()

/-- A stale hit is refreshed, unless it is a variant. -/
def revalidate (env : Env) (cfg : Config) (key : Bytes) (inc : Incoming) (c : Cached)
    (varied : Bool) : Serve Unit :=
  if c.stale && !varied then spawn env cfg key inc else pure ()

def serveHit (env : Env) (cfg : Config) (inc : Incoming) (c : Cached) : Serve HttpResponse :=
  if esiRequested c.headers && hasTags c.body then do
    let expanded ← esiExpand (esiFragment env cfg inc) c.body
    pure (buildResponse env ⟨c.status, c.headers, expanded⟩
      (some (if c.stale then ofString "STALE" else ofString "HIT")) inc.acceptEncoding)
  else pure (cachedResponse env c)

def staleErrorFallback (env : Env) (inc : Incoming) (key : Bytes) :
    Serve (Option HttpResponse) := do
  let found ← resolve env .staleOnError inc.req.uri.path key inc.req.headers
  pure (found.map fun (c, _) => staleErrorResponse env c)

/-- What a follower gets when its leader is done. -/
def serveFollower (env : Env) (inc : Incoming) (key : Bytes) : Serve (Option HttpResponse) := do
  let found ← resolve env .peek inc.req.uri.path key inc.req.headers
  pure ((found.filter fun (c, _) => !c.errorOnly).map fun (c, _) => cachedResponse env c)

/-- The response of PHP is stored, if the request has a key. -/
def keepResponse (env : Env) (cfg : Config) (inc : Incoming) (resp : Response) :
    Option Bytes → Serve Unit
  | none => pure ()
  | some key =>
    keep env .client inc.req.uri.path
      { key, resp, acceptEncoding := inc.acceptEncoding, varyUa := cfg.cacheVaryUserAgent
        rule := (cfg.cacheRuleFor inc.req.uri.path).map (·.toCacheRule)
        app := env.around.forDocroot (handleSite cfg inc.req).1
        requestHeaders := inc.req.headers }

/-- The body of a response of PHP, assembled if it opts in. -/
def responseBody (env : Env) (cfg : Config) (inc : Incoming) (resp : Response) : Serve Bytes :=
  if esiRequested resp.headers && hasTags resp.body then
    esiExpand (esiFragment env cfg inc) resp.body
  else pure resp.body

/-- The response to what PHP answered. -/
def respond (env : Env) (cfg : Config) (inc : Incoming) (key : Option Bytes) :
    Reply → Serve HttpResponse
  | .stream status headers => pure (streamResponse env status headers)
  | .failed why => pure (text 502 (ofString "askr: " ++ why))
  | .buffered resp => do
    keepResponse env cfg inc resp key
    let state :=
      if cfg.passes inc.req.uri.path then some (ofString "PASS")
      else if env.enabled then some (ofString "MISS") else none
    let body ← responseBody env cfg inc resp
    pure (buildResponse env { resp with body } state inc.acceptEncoding)

/-- PHP runs, and a failure is covered up when there is a copy for that. -/
def render (env : Env) (cfg : Config) (inc : Incoming) (key : Option Bytes) :
    Serve HttpResponse := do
  let reply ← runPhp env (buildRequest env.around
    (cfg.context (handleSite cfg inc.req) inc.peer inc.port) inc.req inc.body)
  let response ← respond env cfg inc key reply
  match key with
  | none => pure response
  | some key =>
    if response.status ≥ 500 then do
      let fallback ← staleErrorFallback env inc key
      pure (fallback.getD response)
    else pure response

/-- `handle`, once the cache has nothing fresh for the request. -/
def miss (env : Env) (cfg : Config) (inc : Incoming) (key : Bytes) : Serve HttpResponse := do
  let t ← next env
  if env.leads t key then render env cfg inc (some key)
  else if env.leaderEnds t key then do
    let served ← serveFollower env inc key
    match served with
    | some response => pure response
    | none => render env cfg inc (some key)
  else render env cfg inc (some key)

/-- `handle`, for a request that is looked up. -/
def lookup (env : Env) (cfg : Config) (inc : Incoming) (key : Bytes) : Serve HttpResponse := do
  let found ← resolve env .get inc.req.uri.path key inc.req.headers
  match found with
  | some (c, varied) => do
    revalidate env cfg key inc c varied
    serveHit env cfg inc c
  | none => do
    let t ← next env
    if env.saint t then do
      let fallback ← staleErrorFallback env inc key
      match fallback with
      | some response => pure response
      | none => miss env cfg inc key
    else miss env cfg inc key

/-- What is answered before the cache is asked: a refusal by the rate limiter, from which a replay
is exempt, or what needs no PHP. -/
def turnedAway (env : Env) (t : Nat) (inc : Incoming) : Option HttpResponse :=
  (if env.replaying t then none else env.limited t inc.req inc.peer).or (env.early t inc.req)

def handle (env : Env) (cfg : Config) (inc : Incoming) : Serve HttpResponse := do
  let t ← next env
  match turnedAway env t inc with
  | some response => pure response
  | none =>
    if env.enabled && !env.replaying t && cfg.cacheable inc.req then
      lookup env cfg inc (cfg.cacheKey inc.req)
    else render env cfg inc none

/-! ## `refresh_entry` -/

def refreshEntry (env : Env) (cfg : Config) (port : Nat) (r : Refresh) : Serve Unit :=
  match r.parts with
  | none => pure ()
  | some parts => do
    let reply ← runPhp env (buildRequest env.around (cfg.context (r.site cfg) r.peer port) parts [])
    match reply with
    | .buffered resp =>
      keep env .refresh r.uri.path
        { key := r.key, resp, acceptEncoding := r.acceptEncoding, varyUa := cfg.cacheVaryUserAgent
          rule := (cfg.cacheRuleFor r.uri.path).map (·.toCacheRule)
          app := env.around.forDocroot (r.site cfg).1, requestHeaders := parts.headers }
    | _ => pure ()

/-- What happens at a server: a client sends a request, or a refresh that was started runs. -/
inductive Visit where
  | client (inc : Incoming)
  | refresh (n port : Nat)

def visit (env : Env) (cfg : Config) (st : St) : Visit → St
  | .client inc => (handle env cfg inc st).2
  | .refresh n port =>
    match st.pending[n]? with
    | none => st
    | some r => (refreshEntry env cfg port r { st with pending := st.pending.eraseIdx n }).2

/-! ## The branches that serve an entry -/

/-- The branches of `handle` that turn an entry into a response. -/
inductive Serving where
  | hit
  | follower
  | saint
  | fallback
deriving DecidableEq

/-- The response each of them makes. -/
def Serving.serve (env : Env) (cfg : Config) (inc : Incoming) (c : Cached) :
    Serving → Serve HttpResponse
  | .hit => serveHit env cfg inc c
  | .follower => pure (cachedResponse env c)
  | .saint | .fallback => pure (staleErrorResponse env c)

/-- The header lines the server adds of its own. -/
def ownLines : Headers :=
  (["HIT", "STALE", "STALE-ERROR"].map fun s => (ofString "X-Askr-Cache", ofString s)) ++
    [(ofString "content-encoding", Encoding.br.header),
      (ofString "content-encoding", Encoding.gzip.header),
      (ofString "vary", ofString "Accept-Encoding")]

/-- Hyper takes the header lines of the entry. When it does not, no page is sent at all. -/
def Env.Takes (env : Env) (c : Cached) : Prop :=
  ∀ kept more, kept.Sublist c.headers → more ⊆ ownLines → env.admits (kept ++ more) = true

/-- **The page is assembled**: what is sent for the entry is its body with the includes filled in,
whatever the fragments are. -/
def Serving.Assembles (w : Serving) (c : Cached) : Prop :=
  ∀ (env : Env) (cfg : Config) (inc : Incoming) (st : St), env.Takes c →
    (w.serve env cfg inc c st).1.content = (esiExpand (esiFragment env cfg inc) c.body st).1

theorem content_cachedResponse {env : Env} {c : Cached} (h : env.Takes c) :
    (cachedResponse env c).content = c.body := by
  rw [cachedResponse, if_pos]
  refine h _ _ (List.Sublist.refl _) (cons_subset.2 ⟨?_, nil_subset _⟩)
  split
  · decide
  · split <;> decide

theorem content_staleErrorResponse {env : Env} {c : Cached} (h : env.Takes c) :
    (staleErrorResponse env c).content = c.body := content_cachedResponse h

theorem content_buildResponse {env : Env} {c : Cached} (h : env.Takes c) (body state enc : Bytes)
    (hstate : (ofString "X-Askr-Cache", state) ∈ ownLines) :
    (buildResponse env ⟨c.status, c.headers, body⟩ (some state) enc).content = body := by
  rw [buildResponse, if_pos]
  rw [append_assoc]
  refine h _ _ filter_sublist ?_
  refine append_subset.2 ⟨by simpa using hstate, ?_⟩
  split
  · rename_i enc _ _
    cases enc <;> decide
  · simp

theorem assembles_hit {c : Cached} (hesi : esiRequested c.headers = true) :
    Serving.Assembles .hit c := by
  intro env cfg inc st htakes
  rw [Serving.serve, serveHit, hesi, Bool.true_and]
  by_cases htags : hasTags c.body = true
  · rw [if_pos htags]
    refine content_buildResponse htakes _ _ _ ?_
    split <;> decide
  · rw [if_neg htags]
    have hincl : (plan c.body).any Segment.isIncl = false := by
      rw [← Bool.not_eq_true]
      exact fun h => htags (hasTags_of_incl h)
    rw [esiExpand_of_no_incl _ hincl]
    exact content_cachedResponse htakes

theorem content_serve {w : Serving} (hw : w ≠ .hit) {env : Env} {c : Cached} (h : env.Takes c)
    (cfg : Config) (inc : Incoming) (st : St) : (w.serve env cfg inc c st).1.content = c.body := by
  cases w with
  | hit => exact absurd rfl hw
  | follower => exact content_cachedResponse h
  | saint => exact content_staleErrorResponse h
  | fallback => exact content_staleErrorResponse h

/-- Surroundings in which nothing is special: hyper takes every header line, nothing is limited,
everybody leads, and PHP is down. -/
def quietEnv : Env where
  hasher := Ns.bytesHash
  codec := ⟨fun _ => none, fun _ _ => none⟩
  around :=
    { net := ⟨fun _ => [], fun _ => none⟩, protocol := ofString "HTTP/1.1", now := 0
      forDocroot := fun _ => siteApp }
  admits _ := true
  parseUri _ := none
  enabled := true
  clock _ := 0
  others _ := []
  php _ _ := .failed []
  replaying _ := false
  limited _ _ _ := none
  early _ _ := none
  saint _ := false
  leads _ _ := true
  leaderEnds _ _ := true

def hostlessRequest : Req := hostRequest [] rfl

theorem esiFragment_limited {env : Env} (h : ∀ t req peer, (env.limited t req peer).isSome = true)
    (cfg : Config) (inc : Incoming) (src : Bytes) :
    Yields (· = none) (esiFragment env cfg inc src) := by
  rw [esiFragment]
  split
  · exact .pure rfl
  · refine Yields.bind (Q := fun _ => True) (fun _ => trivial) fun t _ => ?_
    rw [if_pos (h _ _ _)]
    exact .pure rfl

theorem not_assembles {w : Serving} (hw : w ≠ .hit) {c : Cached}
    (hincl : (plan c.body).any Segment.isIncl = true) : ¬ w.Assembles c := by
  intro h
  let env : Env := { quietEnv with limited := fun _ _ _ => some (text 429 []) }
  let inc : Incoming := ⟨hostlessRequest, gateway, 0, []⟩
  have htakes : env.Takes c := fun _ _ _ _ => rfl
  have hnone : ∀ src, Yields (· = none) (esiFragment env (wildcardConfig []) inc src) :=
    esiFragment_limited (fun _ _ _ => rfl) _ inc
  have hlt := esiExpand_length_lt hnone hincl (.init 0)
  rw [← h env _ inc _ htakes, content_serve hw htakes] at hlt
  exact Nat.lt_irrefl _ hlt

/-- **When an entry that opts into assembly is sent assembled**, whatever its fragments are: on a
hit, and on the other branches exactly when it has no include in it. -/
theorem assembled_iff (w : Serving) (c : Cached) (hesi : esiRequested c.headers = true) :
    w.Assembles c ↔ w = .hit ∨ (plan c.body).any Segment.isIncl = false := by
  constructor
  · intro h
    by_contra hno
    rw [not_or, Bool.not_eq_false] at hno
    exact not_assembles hno.1 hno.2 h
  · rintro (rfl | hincl)
    · exact assembles_hit hesi
    · by_cases hw : w = .hit
      · rw [hw]
        exact assembles_hit hesi
      · intro env cfg inc st htakes
        rw [content_serve hw htakes, esiExpand_of_no_incl _ hincl]
        rfl

/-- A page with a fragment in it. -/
def shellPage : Cached :=
  { status := 200, headers := [(ofString "Askr-ESI", ofString "on")]
    body := ofString "<p><esi:include src=\"/cart\"/></p>", stale := false, errorOnly := false }

/-- A hit on that page is assembled. -/
theorem assembled_on_hit :
    esiRequested shellPage.headers = true ∧ Serving.Assembles .hit shellPage :=
  ⟨by decide, (assembled_iff .hit shellPage (by decide)).2 (.inl rfl)⟩

/-- **The follower gets the tags.** The page with a fragment in it is sent to a coalesced follower
as it was stored. -/
theorem tags_sent_to_follower :
    ¬ ∀ (w : Serving) (c : Cached), esiRequested c.headers = true → w.Assembles c := by
  intro h
  have hincl : (plan shellPage.body).any Segment.isIncl = true := by decide +kernel
  exact not_assembles (w := .follower) (by decide) hincl (h .follower shellPage (by decide))

end Askr.Server
