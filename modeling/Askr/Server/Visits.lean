import Askr.Server.Handle

/-!
# Whole runs of the server

`Good` holds in every state a server reaches, whatever is left open in `Env` and whatever other
workers do to the cache (`good_served`): the cache is what its calls have made of it; a read or a
store for a path that a rule keeps out of the cache was for a fragment; and no client is answered
with the index of a `Vary`. It is proved for the functions of `handle` in the order in which they
call each other.

`esi_fragment` looks up its key directly: it does not ask the rules, and does not follow an index.
So `pass` keeps a path out of the cache in every run in which no such path is included as a fragment
(`pass_kept`), and an index is never served in a run in which no fragment has the key of one
(`index_not_served`).
-/

namespace Askr.Server

open Bytes Policy Rcache State Option Run

/-! ## What holds in every state -/

/-- The fragment that was asked for is the one of the read. -/
def Read.fragment (r : Read) : Fragment := ⟨r.path, r.key⟩

/-- Some response that was stored under a key of this hash asked for an index. -/
def Indexed (env : Env) (calls : List Call) (key : Bytes) : Prop :=
  ∃ a ∈ stores calls, a.appVary.isSome = true ∧
    hashBytes env.hasher a.key = hashBytes env.hasher key

/-- What is known about a read. -/
structure Read.Ok (env : Env) (cfg : Config) (st : St) (r : Read) : Prop where
  passed : cfg.passes r.path = true → r.route = .fragment
  index : isVaryIndex r.entry = true → r.route = .fragment ∧ Indexed env st.calls r.key
  asked : r.route = .fragment → r.fragment ∈ st.asked

/-- Was a fragment of the path asked for? -/
def St.Asked (st : St) (path : Bytes) : Prop := ∃ f ∈ st.asked, f.path = path

/-- What is known about a store. -/
structure Stored.Ok (cfg : Config) (st : St) (s : Stored) : Prop where
  passed : cfg.passes s.path = true → s.route = .fragment
  asked : s.route = .fragment → st.Asked s.path

/-- What holds in every state. -/
structure Good (env : Env) (cfg : Config) (slots : Nat) (st : St) : Prop where
  cache : st.cache = after env.codec env.hasher slots st.calls
  pending : ∀ r ∈ st.pending, cfg.passes r.uri.path = false
  reads : ∀ r ∈ st.reads, r.Ok env cfg st
  stored : ∀ s ∈ st.stored, s.Ok cfg st

section
variable {env : Env} {cfg : Config} {slots : Nat} {st st' : St} {path key : Bytes}

/-- What is known stays known when there are more calls and more fragments. -/
theorem Read.Ok.mono {r : Read} (h : r.Ok env cfg st) (hcalls : st.calls <+: st'.calls)
    (hasked : st.asked <+: st'.asked) : r.Ok env cfg st' where
  passed := h.passed
  index hi := by
    obtain ⟨hr, a, ha, hkey⟩ := h.index hi
    obtain ⟨more, hmore⟩ := hcalls
    rw [Indexed, ← hmore, stores_append]
    exact ⟨hr, a, List.mem_append_left _ ha, hkey⟩
  asked hr := hasked.subset (h.asked hr)

theorem Stored.Ok.mono {s : Stored} (h : s.Ok cfg st) (hasked : st.asked <+: st'.asked) :
    s.Ok cfg st' where
  passed := h.passed
  asked hs := by
    obtain ⟨f, hf, hpath⟩ := h.asked hs
    exact ⟨f, hasked.subset hf, hpath⟩

theorem Good.extend (h : Good env cfg slots st) (st' : St) {calls : List Call}
    {asked : List Fragment} {reads : List Read} {stored : List Stored}
    (hcache : st'.cache = runs (Call.run env.codec env.hasher) st.cache calls)
    (hpending : st'.pending = st.pending) (hcalls : st'.calls = st.calls ++ calls)
    (hasked : st'.asked = st.asked ++ asked)
    (hreads : st'.reads = st.reads ++ reads) (hr : ∀ r ∈ reads, r.Ok env cfg st')
    (hstored : st'.stored = st.stored ++ stored) (hs : ∀ s ∈ stored, s.Ok cfg st') :
    Good env cfg slots st' where
  cache := by rw [hcache, h.cache, hcalls, after, after, runs_append]
  pending := by
    rw [hpending]
    exact h.pending
  reads r hmem := by
    rw [hreads, List.mem_append] at hmem
    rcases hmem with hmem | hmem
    · exact (h.reads r hmem).mono ⟨_, hcalls.symm⟩ ⟨_, hasked.symm⟩
    · exact hr r hmem
  stored s hmem := by
    rw [hstored, List.mem_append] at hmem
    rcases hmem with hmem | hmem
    · exact (h.stored s hmem).mono ⟨_, hasked.symm⟩
    · exact hs s hmem

theorem Good.withPending (h : Good env cfg slots st) {pending : List Refresh}
    (hp : ∀ r ∈ pending, cfg.passes r.uri.path = false) :
    Good env cfg slots { st with pending } where
  cache := h.cache
  pending := hp
  reads r hr := (h.reads r hr).mono (List.prefix_refl _) (List.prefix_refl _)
  stored s hs := (h.stored s hs).mono (List.prefix_refl _)

theorem good_init (env : Env) (cfg : Config) (slots : Nat) : Good env cfg slots (.init slots) where
  cache := rfl
  pending := by simp [St.init]
  reads := by simp [St.init]
  stored := by simp [St.init]

/-! ## The steps on the cache -/

theorem keeps_next : Keeps (Good env cfg slots) (next env) := fun _ h =>
  h.extend _ rfl rfl rfl (List.append_nil _).symm (List.append_nil _).symm (by simp)
    (List.append_nil _).symm (by simp)

theorem keeps_time : Keeps (Good env cfg slots) (time env) :=
  keeps_next.bind fun _ => Keeps.pure _

theorem runs_zipWith_peekCall (codec : Codec) (hasher : Hasher) (c : Cache) (keys : List Bytes)
    (times : List Nat) : runs (Call.run codec hasher) c (List.zipWith peekCall keys times) =
      runs (step hasher) c (List.zipWith Op.peek keys times) := by
  induction keys generalizing c times with
  | nil => rfl
  | cons key keys ih =>
    cases times with
    | nil => rfl
    | cons now times => exact ih _ times

theorem resolveAt_eq (f : Fetch) (h : HeaderMap) (now now' : Nat) :
    resolveAt env f path key h now now' st =
      let peeks := List.zipWith peekCall (keysTried env.hasher f st.cache key h now) [now, now']
      let found := (resolveEntry env.hasher f st.cache st.cache key h now now').map
        fun (e, variant) => (e.cached (if variant then now' else now), variant)
      (found,
        { st with
          cache := runs (Call.run env.codec env.hasher) st.cache peeks
          calls := st.calls ++ peeks
          reads := st.reads ++ (found.map fun (c, _) => ⟨.client, path, key, c⟩).toList }) := by
  unfold resolveAt
  rw [resolveCached_eq]
  simp only [runs_zipWith_peekCall]

/-- A lookup for a client answers with a response, never with an index. -/
theorem keeps_resolveAt (hpath : cfg.passes path = false) (f : Fetch) (h : HeaderMap)
    (now now' : Nat) : Keeps (Good env cfg slots) (resolveAt env f path key h now now') := by
  intro st hst
  rw [resolveAt_eq]
  refine hst.extend _ rfl rfl rfl (List.append_nil _).symm rfl ?_ (List.append_nil _).symm (by simp)
  intro r hr
  obtain ⟨_, hc, rfl⟩ := map_eq_some_iff.1 (mem_toList.1 hr)
  obtain ⟨⟨e, variant⟩, he, rfl⟩ := map_eq_some_iff.1 hc
  refine ⟨fun hp => ?_, fun hi => ?_, fun hroute => by cases hroute⟩
  · rw [hpath] at hp
    cases hp
  · rw [isVaryIndex_cached, (resolveEntry_cases he).1] at hi
    cases hi

theorem keeps_resolve (hpath : cfg.passes path = false) (f : Fetch) (h : HeaderMap) :
    Keeps (Good env cfg slots) (resolve env f path key h) :=
  keeps_time.bind fun _ => keeps_time.bind fun _ => keeps_resolveAt hpath f h _ _

theorem indexed_of_entry {calls : List Call} {f : Fetch} {now : Nat} {e : Entry}
    (he : f.entry env.hasher (after env.codec env.hasher slots calls) key now = some e)
    (hindex : (indexNames e).isSome = true) : Indexed env calls key := by
  obtain ⟨a, ha, hholds | hindexes⟩ := written_of_entry he
  · rw [hholds.indexNames_eq] at hindex
    cases hindex
  · have hhash := (Fetch.live_of_entry he).2
    obtain ⟨names, d, tag, now', hvary, rfl⟩ := hindexes
    exact ⟨a, ha, by rw [hvary]; rfl, hhash⟩

theorem getAt_eq (now : Nat) : getAt env path key now st =
    let found := (Fetch.entry env.hasher .get st.cache key now).map fun e => e.cached now
    (found,
      { st with
        cache := runs (Call.run env.codec env.hasher) st.cache [peekCall key now]
        calls := st.calls ++ [peekCall key now]
        asked := st.asked ++ [⟨path, key⟩]
        reads := st.reads ++ (found.map fun c => ⟨.fragment, path, key, c⟩).toList }) := by
  have heq : Rcache.get env.hasher st.cache key now = _ :=
    Fetch.run_eq env.hasher .get st.cache key now
  unfold getAt
  rw [heq]
  rfl

theorem ends_getAt (now : Nat) : Ends (Good env cfg slots) (getAt env path key now)
    fun st => Good env cfg slots st ∧ st.Asked path := by
  intro st hst
  rw [getAt_eq]
  have hmem : (⟨path, key⟩ : Fragment) ∈ st.asked ++ [⟨path, key⟩] := by simp
  refine ⟨hst.extend _ rfl rfl rfl rfl rfl ?_ (List.append_nil _).symm (by simp), _, hmem, rfl⟩
  intro r hr
  obtain ⟨_, hc, rfl⟩ := map_eq_some_iff.1 (mem_toList.1 hr)
  obtain ⟨e, he, rfl⟩ := map_eq_some_iff.1 hc
  refine ⟨fun _ => rfl, fun hi => ⟨rfl, ?_⟩, fun _ => hmem⟩
  rw [isVaryIndex_cached] at hi
  rw [hst.cache] at he
  obtain ⟨a, ha, hkey⟩ := indexed_of_entry he hi
  rw [Indexed, stores_append]
  exact ⟨a, List.mem_append_left _ ha, hkey⟩

variable {route : Route}

/-- A store for a path that may be cached, or for a fragment that was asked for. -/
theorem keeps_storeAt (hroute : route ≠ .fragment → cfg.passes path = false)
    (a : StoreArgs) (now now' : Nat) :
    Keeps (fun st => Good env cfg slots st ∧ (route = .fragment → st.Asked path))
      (storeAt env route path a now now') := by
  rintro st ⟨hst, hasked⟩
  refine ⟨hst.extend _ (maybeStore_eq env.codec env.hasher st.cache a now now') rfl rfl
    (List.append_nil _).symm (List.append_nil _).symm (by simp) rfl ?_, hasked⟩
  intro s hs
  obtain rfl := List.mem_singleton.1 (List.mem_ite_nil_right.1 hs).2
  refine ⟨fun hp => ?_, hasked⟩
  by_contra hne
  rw [hroute hne] at hp
  cases hp

theorem keeps_time_asked :
    Keeps (fun st => Good env cfg slots st ∧ (route = .fragment → st.Asked path)) (time env) :=
  fun st h => ⟨keeps_time st h.1, h.2⟩

theorem ends_keep (hroute : route ≠ .fragment → cfg.passes path = false) (a : StoreArgs) :
    Ends (fun st => Good env cfg slots st ∧ (route = .fragment → st.Asked path))
      (keep env route path a) (Good env cfg slots) :=
  keeps_time_asked.bind fun _ => keeps_time_asked.bind fun _ =>
    (keeps_storeAt hroute a _ _).mono fun _ h => h.1

theorem keeps_keep (hroute : route ≠ .fragment) (hpath : cfg.passes path = false)
    (a : StoreArgs) : Keeps (Good env cfg slots) (keep env route path a) :=
  fun st h => ends_keep (fun _ => hpath) a st ⟨h, fun hr => absurd hr hroute⟩

theorem keeps_runPhp (request : PhpRequest) : Keeps (Good env cfg slots) (runPhp env request) :=
  keeps_next.bind fun _ => Keeps.pure _

/-! ## The functions of the server -/

theorem ends_renderFragment (page : Incoming) (src : Bytes) (req : Req) :
    Ends (fun st => Good env cfg slots st ∧ (env.enabled = true → st.Asked req.uri.path))
      (renderFragment env cfg page src req) (Good env cfg slots) := by
  have hphp : ∀ request, Keeps (fun st => Good env cfg slots st ∧
      (env.enabled = true → st.Asked req.uri.path)) (runPhp env request) :=
    fun request st h => ⟨keeps_runPhp request st h.1, h.2⟩
  refine (hphp _).bind fun reply => ?_
  cases reply with
  | stream | failed => exact .pure (fun _ h => h.1) _
  | buffered resp =>
    refine .ite (fun _ => .ite (fun hon => ?_) fun _ => .pure (fun _ h => h.1) _) fun _ =>
      .pure (fun _ h => h.1) _
    refine Ends.bind (J := Good env cfg slots) (fun st h => ?_) fun _ => Keeps.pure _
    exact ends_keep (fun hr => absurd rfl hr) _ st ⟨h.1, fun _ => h.2 hon⟩

theorem keeps_esiFragment (page : Incoming) (src : Bytes) :
    Keeps (Good env cfg slots) (esiFragment env cfg page src) := by
  rw [esiFragment]
  split
  · exact Keeps.pure _
  · rename_i req _
    refine keeps_next.bind fun t => .ite (fun _ => Keeps.pure _) fun _ => .ite (fun _ => ?_) ?_
    · refine keeps_time.bind fun now => (ends_getAt now).bind fun hit => ?_
      cases hit with
      | some c => exact .pure (fun _ h => h.1) _
      | none => exact fun st h => ends_renderFragment page src req st ⟨h.1, fun _ => h.2⟩
    · exact fun hoff st h => ends_renderFragment page src req st ⟨h, fun hon => absurd hon hoff⟩

variable {inc : Incoming}

theorem keeps_spawn (hpath : cfg.passes inc.req.uri.path = false) :
    Keeps (Good env cfg slots) (spawn env cfg key inc) := by
  refine keeps_next.bind fun t => .ite (fun _ st h => ?_) fun _ => Keeps.pure _
  refine h.withPending fun r hr => ?_
  rcases List.mem_append.1 hr with hr | hr
  · exact h.pending r hr
  · rw [List.mem_singleton.1 hr]
    exact hpath

theorem keeps_revalidate (hpath : cfg.passes inc.req.uri.path = false) (c : Cached)
    (varied : Bool) : Keeps (Good env cfg slots) (revalidate env cfg key inc c varied) :=
  .ite (fun _ => keeps_spawn hpath) fun _ => Keeps.pure _

theorem keeps_serveHit (inc : Incoming) (c : Cached) :
    Keeps (Good env cfg slots) (serveHit env cfg inc c) :=
  .ite (fun _ => (keeps_esiExpand (keeps_esiFragment inc) _).bind fun _ => Keeps.pure _)
    fun _ => Keeps.pure _

theorem keeps_staleErrorFallback (hpath : cfg.passes inc.req.uri.path = false) :
    Keeps (Good env cfg slots) (staleErrorFallback env inc key) :=
  (keeps_resolve hpath _ _).bind fun _ => Keeps.pure _

theorem keeps_serveFollower (hpath : cfg.passes inc.req.uri.path = false) :
    Keeps (Good env cfg slots) (serveFollower env inc key) :=
  (keeps_resolve hpath _ _).bind fun _ => Keeps.pure _

theorem keeps_keepResponse {key : Option Bytes}
    (hpath : key.isSome = true → cfg.passes inc.req.uri.path = false) (resp : Response) :
    Keeps (Good env cfg slots) (keepResponse env cfg inc resp key) := by
  cases key with
  | none => exact Keeps.pure _
  | some key => exact keeps_keep (by decide) (hpath rfl) _

theorem keeps_responseBody (inc : Incoming) (resp : Response) :
    Keeps (Good env cfg slots) (responseBody env cfg inc resp) :=
  .ite (fun _ => keeps_esiExpand (keeps_esiFragment inc) _) fun _ => Keeps.pure _

theorem keeps_respond {key : Option Bytes}
    (hpath : key.isSome = true → cfg.passes inc.req.uri.path = false) (reply : Reply) :
    Keeps (Good env cfg slots) (respond env cfg inc key reply) := by
  cases reply with
  | stream | failed => exact Keeps.pure _
  | buffered resp =>
    exact (keeps_keepResponse hpath resp).bind fun _ =>
      (keeps_responseBody inc resp).bind fun _ => Keeps.pure _

theorem keeps_render {key : Option Bytes}
    (hpath : key.isSome = true → cfg.passes inc.req.uri.path = false) :
    Keeps (Good env cfg slots) (render env cfg inc key) := by
  refine (keeps_runPhp _).bind fun reply => (keeps_respond hpath reply).bind fun response => ?_
  cases key with
  | none => exact Keeps.pure _
  | some key =>
    exact .ite (fun _ => (keeps_staleErrorFallback (hpath rfl)).bind fun _ => Keeps.pure _)
      fun _ => Keeps.pure _

theorem keeps_miss (hpath : cfg.passes inc.req.uri.path = false) :
    Keeps (Good env cfg slots) (miss env cfg inc key) := by
  have hrender : Keeps (Good env cfg slots) (render env cfg inc (some key)) :=
    keeps_render fun _ => hpath
  refine keeps_next.bind fun t => .ite (fun _ => hrender) fun _ =>
    .ite (fun _ => ?_) fun _ => hrender
  refine (keeps_serveFollower hpath).bind fun served => ?_
  cases served with
  | none => exact hrender
  | some response => exact Keeps.pure _

theorem keeps_lookup (hpath : cfg.passes inc.req.uri.path = false) :
    Keeps (Good env cfg slots) (lookup env cfg inc key) := by
  refine (keeps_resolve hpath _ _).bind fun found => ?_
  cases found with
  | some hit =>
    exact (keeps_revalidate hpath hit.1 hit.2).bind fun _ => keeps_serveHit inc hit.1
  | none =>
    refine keeps_next.bind fun t => .ite (fun _ => ?_) fun _ => keeps_miss hpath
    refine (keeps_staleErrorFallback hpath).bind fun fallback => ?_
    cases fallback with
    | none => exact keeps_miss hpath
    | some response => exact Keeps.pure _

theorem passes_of_cacheable {req : Req} (h : cfg.cacheable req = true) :
    cfg.passes req.uri.path = false := by
  rw [Config.cacheable] at h
  simp only [Bool.and_eq_true, Bool.not_eq_true'] at h
  exact h.1.1

theorem keeps_handle (inc : Incoming) : Keeps (Good env cfg slots) (handle env cfg inc) := by
  refine keeps_next.bind fun t => ?_
  split
  · exact Keeps.pure _
  · refine .ite (fun hc => ?_) fun _ => keeps_render (fun h => absurd h (by decide))
    rw [Bool.and_eq_true] at hc
    exact keeps_lookup (passes_of_cacheable hc.2)

theorem keeps_refreshEntry {r : Refresh} (hpath : cfg.passes r.uri.path = false) (port : Nat) :
    Keeps (Good env cfg slots) (refreshEntry env cfg port r) := by
  rw [refreshEntry]
  split
  · exact Keeps.pure _
  · refine (keeps_runPhp _).bind fun reply => ?_
    cases reply with
    | stream | failed => exact Keeps.pure _
    | buffered resp => exact keeps_keep (by decide) hpath _

theorem Good.visit (h : Good env cfg slots st) (v : Visit) :
    Good env cfg slots (Server.visit env cfg st v) := by
  cases v with
  | client inc => exact keeps_handle inc st h
  | refresh n port =>
    rw [Server.visit]
    split
    · exact h
    · rename_i r hr
      refine keeps_refreshEntry (h.pending r (List.mem_of_getElem? hr)) port _ (h.withPending ?_)
      exact fun r' hr' => h.pending r' (List.mem_of_mem_eraseIdx hr')

end

/-- The state after the visits. -/
def served (env : Env) (cfg : Config) (slots : Nat) (visits : List Visit) : St :=
  runs (visit env cfg) (.init slots) visits

theorem good_served (env : Env) (cfg : Config) (slots : Nat) (visits : List Visit) :
    Good env cfg slots (served env cfg slots visits) :=
  runs_inv (fun _ v h => h.visit v) visits (good_init env cfg slots)

/-! ## Paths that are kept out of the cache -/

/-- **A rule that says `pass` keeps a path out of the cache**: no response for such a path was read
from it or stored in it. -/
def PassKept (cfg : Config) (st : St) : Prop :=
  (∀ r ∈ st.reads, cfg.passes r.path = false) ∧ ∀ s ∈ st.stored, cfg.passes s.path = false

/-- **When a rule keeps its paths out of the cache.** In every run in which the cache was asked for
no fragment of such a path. -/
theorem pass_kept (env : Env) (cfg : Config) (slots : Nat) (visits : List Visit)
    (h : ∀ f ∈ (served env cfg slots visits).asked, cfg.passes f.path = false) :
    PassKept cfg (served env cfg slots visits) := by
  have hgood := good_served env cfg slots visits
  constructor
  · intro r hr
    by_contra hp
    rw [Bool.not_eq_false] at hp
    obtain ⟨hpassed, -, hasked⟩ := hgood.reads r hr
    have hno := h _ (hasked (hpassed hp))
    rw [Read.fragment, hp] at hno
    cases hno
  · intro s hs
    by_contra hp
    rw [Bool.not_eq_false] at hp
    obtain ⟨hpassed, hasked⟩ := hgood.stored s hs
    obtain ⟨f, hf, hpath⟩ := hasked (hpassed hp)
    have hno := h f hf
    rw [hpath, hp] at hno
    cases hno

/-- A client asks for the path. -/
def get (path : Bytes) (ok : 0 ∉ path) : Visit :=
  .client ⟨{ hostlessRequest with uri := .ofPath path ok }, gateway, 0, []⟩

/-- The shop: every page but the cart has the cart in it, and the cart is answered with the given
headers. -/
def shopEnv (cart : Headers) : Env :=
  { quietEnv with
    parseUri := fun src =>
      if src = ofString "/cart" then some (.ofPath (ofString "/cart") (by decide)) else none
    php := fun _ request =>
      if (ofString "PATH_INFO", ofString "/cart") ∈ request.serverVars then
        .buffered ⟨200, cart, ofString "empty"⟩
      else .buffered ⟨200, shellPage.headers, shellPage.body⟩ }

/-- The configuration of the shop: one path is kept out of the cache. -/
def shopConfig (passed : Bytes) : Config :=
  { wildcardConfig [] with
    cacheRules := [{ ttl := none, swr := 0, staleIfError := 0, path := passed
                     action := some (ofString "pass"), force := false }] }

/-- A cart that may be cached for a minute. -/
def cachedCart : Headers := [(ofString "Askr-Cache", ofString "60")]

/-- The cart is cached, and the account is not. -/
theorem pass_kept_account : (served (shopEnv cachedCart) (shopConfig (ofString "/account")) 16
        [get (ofString "/") (by decide), get (ofString "/account") (by decide)]).stored.length = 1 ∧
      PassKept (shopConfig (ofString "/account"))
        (served (shopEnv cachedCart) (shopConfig (ofString "/account")) 16
          [get (ofString "/") (by decide), get (ofString "/account") (by decide)]) :=
  ⟨by decide +kernel, pass_kept _ _ 16 _ (by decide +kernel)⟩

/-- **A fragment is cached although a rule says `pass`.** A client asks for a page with the cart in
it; the cart, whose path is to be kept out of the cache, is stored. -/
theorem passed_cart_stored : ¬ ∀ (env : Env) (cfg : Config) (slots : Nat) (visits : List Visit),
      PassKept cfg (served env cfg slots visits) := by
  intro h
  have hstored := (h (shopEnv cachedCart) (shopConfig (ofString "/cart")) 16
    [get (ofString "/") (by decide)]).2
  revert hstored
  decide +kernel

/-! ## Indexes -/

/-- **An index is never served**: every response that was read for a client or as a fragment is one
that was stored as such. -/
def IndexNotServed (st : St) : Prop := ∀ r ∈ st.reads, isVaryIndex r.entry = false

/-- **When an index is never served.** In every run in which no response that asked for an index was
stored under a key that has the hash of the key of a fragment. -/
theorem index_not_served (env : Env) (cfg : Config) (slots : Nat) (visits : List Visit)
    (h : ∀ f ∈ (served env cfg slots visits).asked,
      ∀ a ∈ stores (served env cfg slots visits).calls, a.appVary.isSome = true →
        hashBytes env.hasher a.key ≠ hashBytes env.hasher f.key) :
    IndexNotServed (served env cfg slots visits) := by
  intro r hr
  by_contra hi
  rw [Bool.not_eq_false] at hi
  obtain ⟨-, hindex, hasked⟩ := (good_served env cfg slots visits).reads r hr
  obtain ⟨hroute, a, ha, hvary, hkey⟩ := hindex hi
  exact h _ (hasked hroute) a ha hvary hkey

/-- A cart that also depends on the language. -/
def languageCart : Headers := (ofString "Vary", ofString "Accept-Language") :: cachedCart

/-- The page is asked for twice, and the cart that is cached does not vary. -/
theorem index_not_served_plain_cart :
    (served (shopEnv cachedCart) (shopConfig (ofString "/account")) 16
        [get (ofString "/") (by decide), get (ofString "/") (by decide)]).reads.length = 1 ∧
      IndexNotServed (served (shopEnv cachedCart) (shopConfig (ofString "/account")) 16
        [get (ofString "/") (by decide), get (ofString "/") (by decide)]) :=
  ⟨by decide +kernel, index_not_served _ _ 16 _ (by decide +kernel)⟩

/-- **The index is served as a fragment.** The cart depends on the language, so an index is stored
under its key; the next page that has the cart in it gets the empty body of the index. -/
theorem index_served_as_cart : ¬ ∀ (env : Env) (cfg : Config) (slots : Nat) (visits : List Visit),
      IndexNotServed (served env cfg slots visits) := by
  intro h
  have hreads := h (shopEnv languageCart) (shopConfig (ofString "/account")) 16
    [get (ofString "/") (by decide), get (ofString "/") (by decide)]
  revert hreads
  rw [IndexNotServed]
  decide +kernel

end Askr.Server
