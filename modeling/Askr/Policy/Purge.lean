import Askr.Policy.Key
import Askr.Rcache.Run

/-!
# `PURGE` and the key of a request

A `PURGE` compares the path and query it was sent with the ones in the stored keys, and those have
the normalised query. So what it removes is what a request for the same URL would be served from
exactly when the query is its own normal form (`purge_removes_hit_iff`), or when there is none and
every query of the path goes. `purge_misses_unsorted` is a URL whose page stays: its parameters are
not in order.
-/

namespace Askr.Policy

open Bytes Rcache List Run

/-- A lookup of the key is served from an entry that was stored under it. -/
def ServedFrom (hasher : Hasher) (c : Cache) (key : Bytes) (now : Nat) : Prop :=
  ∃ i, (peekSlot hasher c key now).2 = some i ∧ (c.entry i).key = key

/-- The operation stores nothing under the key. -/
def NoStoreOf (key : Bytes) (op : Op) : Prop :=
  ∀ k page now, op = .store k page now → k.take KEY_MAX ≠ key

theorem wantUrl_storedKey (cfg : Policy.Config) (r : Request)
    (hm : r.method = ofString "GET" ∨ r.method = ofString "HEAD")
    (variant : Option (Bytes × HeaderMap)) :
    wantUrl r.url.host (wantPq r.url.path r.url.query) (storedKey cfg r variant) = true ↔
      r.url.query = none ∨ ∃ q, r.url.query = some q ∧ q ≠ [] ∧ Normal q cfg.cacheStripQuery := by
  have hnul : 0 ∉ r.method := by rcases hm with h | h <;> rw [h] <;> decide
  have hmethod : (r.method == ofString "GET" || r.method == ofString "HEAD") = true := by
    rcases hm with h | h <;> simp [h]
  rw [wantUrl, keyParts_storedKey cfg r hnul variant]
  simp only [hmethod, eqIgnoreAsciiCase_lower, eqIgnoreAsciiCase_self, Bool.true_and]
  cases hq : r.url.query with
  | none =>
    have hpq : wantPq r.url.path none (pathQuery cfg r.url) = true := by
      rw [wantPq, pathQuery]
      split
      · simp
      · simp
    simp [hpq]
  | some q =>
    rw [wantPq, pathQuery, hq]
    simp only [Option.getD_some, beq_iff_eq, reduceCtorEq, Option.some.injEq, false_or,
      exists_eq_left']
    constructor
    · intro h
      split at h
      · have hlen := congrArg length h
        simp at hlen
      · rename_i hne
        have heq : normalizeQuery q cfg.cacheStripQuery = q := by simpa using h
        have hq' : q ≠ [] := heq ▸ hne
        exact ⟨hq', (normalizeQuery_eq_self_iff hq').1 heq⟩
    · rintro ⟨hq', hnormal⟩
      rw [(normalizeQuery_eq_self_iff hq').2 hnormal, if_neg hq']
      simp

/-! ## What a purge leaves -/

def Absent (c : Cache) (key : Bytes) : Prop :=
  ∀ i < c.slots, (c.entry i).state = .occupied → (c.entry i).key ≠ key

section
variable {hasher : Hasher} {c : Cache} {key : Bytes}

theorem Absent.not_servedFrom (h : Absent c key) (now : Nat) : ¬ ServedFrom hasher c key now := by
  rintro ⟨i, hi, hkey⟩
  obtain ⟨hf, hocc, -⟩ := peekIn_hit_iff.1 hi
  exact h i (Cache.lt_of_mem_probe (mem_of_find?_eq_some hf)) hocc hkey

theorem lt_of_step_live {op : Op} {i : Nat} (hi : i < (step hasher c op).slots)
    (hocc : ((step hasher c op).entry i).state = .occupied) : i < c.slots := by
  cases op with
  | restart slots saved stamp stamp' now =>
    simp only [step, restart_eq] at hi hocc
    split at hi
    · simpa using hi
    · rename_i hno
      simp [hno, Cache.init, Entry.zeroed] at hocc
  | store k page now =>
    simp only [step, store] at hi
    split at hi <;> simpa using hi
  | peek k now =>
    simp only [step, peek, peekSlot] at hi
    rcases peekIn_table c (hashBytes hasher k) now (c.probe (hashBytes hasher k)) with
      h | ⟨j, -, h, -⟩ <;> simpa [h] using hi
  | forgetTag tag => exact hi
  | purgeUrl host path query => simpa [step, purgeUrl, scanInvalidate] using hi
  | banGlob host pattern => simpa [step, banGlob, scanInvalidate] using hi
  | flushApp app => simpa [step, flushApp] using hi
  | flushAll => simpa [step, flushAll] using hi

/-- Only a store under the key brings it back. -/
theorem Absent.step (h : Absent c key) {op : Op} (hop : NoStoreOf key op) :
    Absent (step hasher c op) key := by
  intro i hi hocc hkey
  by_cases hw : op.writes hasher c = some i
  · cases op with
    | store k page now =>
      simp only [Op.writes] at hw
      split at hw
      · rename_i hfit
        cases hw
        simp only [Rcache.step, store, hfit, if_true, Cache.set_entry, Function.update_self] at hkey
        exact hop k page now rfl hkey
      · cases hw
    | _ => cases hw
  · have hsame := step_keeps hasher c op hw hocc
    rw [hsame] at hocc hkey
    exact h i (lt_of_step_live hi (hsame ▸ hocc)) hocc hkey

theorem absent_purgeUrl {host path : Bytes} {query : Option Bytes}
    (hwant : wantUrl host (wantPq path query) key = true) :
    Absent (purgeUrl c host path query).1 key := by
  intro i hi hocc hkey
  rw [purgeUrl, scanInvalidate] at hi hocc hkey
  rw [Cache.sweep_slots] at hi
  rw [Cache.sweep_entry _ _ hi] at hocc hkey
  simp only [buryWanted, show (c.entry i).key = key from hkey, hwant, and_true] at hocc
  split at hocc
  · cases hocc
  · rename_i hdead
    exact hdead hocc

/-! ## What a purge misses -/

/-- A page that is always fresh. -/
def blank : Page :=
  { status := 200, headers := [], body := [], ttl := 0, swr := 0, sie := 0, tags := []
    app := none }

/-- A page stored in an empty table is served from there after a purge that does not want its
key. -/
theorem servedFrom_of_missed {host path : Bytes} {query : Option Bytes}
    (hlen : key.length ≤ KEY_MAX) (hmiss : wantUrl host (wantPq path query) key = false) :
    ServedFrom hasher
      (purgeUrl (step hasher (.init 16) (.store key blank 0)) host path query).1 key 0 := by
  obtain ⟨w, hw⟩ := window_succ 15 (Cache.init 16).slots (hashBytes hasher key)
  have hprobe : (Cache.init 16).probe (hashBytes hasher key) = _ := hw
  generalize u64Add (hashBytes hasher key) 0 % (Cache.init 16).slots = i at hprobe
  have hslot : storeSlot hasher (.init 16) key = i := by
    rw [storeSlot, hprobe, storeIn, if_pos (.inl rfl)]
  have hi : i < (Cache.init 16).slots :=
    Cache.lt_of_mem_probe (h := hashBytes hasher key) (by simp [hprobe])
  have hstep : step hasher (.init 16) (.store key blank 0) =
      (Cache.init 16).set i (writeEntry hasher (Cache.init 16).tag key blank 0) := by
    have hfit : blank.fits = true := by decide
    simp [step, store, hfit, hslot]
  have hentry : (purgeUrl ((Cache.init 16).set i
      (writeEntry hasher (Cache.init 16).tag key blank 0)) host path query).1.entry i =
        writeEntry hasher (Cache.init 16).tag key blank 0 := by
    rw [purgeUrl, scanInvalidate, Cache.sweep_entry]
    · simp [buryWanted, writeEntry, take_of_length_le hlen, hmiss]
    · exact hi
  rw [hstep]
  refine ⟨i, ?_, by rw [hentry]; exact take_of_length_le hlen⟩
  rw [peekSlot, peekIn_hit_iff, hentry]
  refine ⟨?_, rfl, rfl, rfl⟩
  have hprobe' : (purgeUrl
      ((Cache.init 16).set i (writeEntry hasher (Cache.init 16).tag key blank 0))
      host path query).1.probe (hashBytes hasher key) = i :: w := by
    rw [purgeUrl, scanInvalidate, Cache.probe_sweep, Cache.probe_set, hprobe]
  rw [hprobe', find?_cons_of_pos]
  rw [ends, hentry]
  simp [writeEntry]

end

/-- **What a `PURGE` removes.** For every request and every key it may be stored under that fits an
entry: in no state of the table does a lookup after the purge of the URL come back with an entry of
the key, until one is stored again, exactly when the URL has no query, or one that
`normalize_query` leaves as it is. -/
theorem purge_removes_hit_iff (hasher : Hasher) (cfg : Policy.Config) (r : Request)
    (hm : r.method = ofString "GET" ∨ r.method = ofString "HEAD")
    (variant : Option (Bytes × HeaderMap)) (hlen : (storedKey cfg r variant).length ≤ KEY_MAX) :
    (∀ slots ops ops' now, (∀ op ∈ ops', NoStoreOf (storedKey cfg r variant) op) →
      ¬ ServedFrom hasher (runs (step hasher)
          (purgeUrl (runs (step hasher) (.init slots) ops) r.url.host r.url.path r.url.query).1
          ops') (storedKey cfg r variant) now) ↔ r.url.query = none ∨
        ∃ q, r.url.query = some q ∧ q ≠ [] ∧ Normal q cfg.cacheStripQuery := by
  rw [← wantUrl_storedKey cfg r hm variant]
  constructor
  · intro h
    by_contra hmiss
    exact h 16 [.store (storedKey cfg r variant) blank 0] [] 0 (by simp)
      (servedFrom_of_missed hlen (Bool.eq_false_iff.2 hmiss))
  · intro hwant slots ops ops' now hops
    have habsent := absent_purgeUrl (c := runs (step hasher) (.init slots) ops) hwant
    have hrun : Run.Along (step hasher) (fun _ op => NoStoreOf (storedKey cfg r variant) op)
        (purgeUrl (runs (step hasher) (.init slots) ops) r.url.host r.url.path r.url.query).1
        ops' := along_of_mem _ hops
    have hend := hrun.inv (I := fun c => Absent c (storedKey cfg r variant))
      (fun _ _ hop hc => hc.step hop) habsent
    exact hend.not_servedFrom now

/-- Nothing is stripped, and there is one encoding. -/
def plainConfig : Policy.Config :=
  { cacheStripQuery := [], cacheVaryUserAgent := false, https := false
    codec := { negotiate := fun _ => none, compress := fun _ _ => none } }

/-- A `GET` of `/p` with a query. -/
def getP (query : Bytes) (h : 0 ∉ query) : Request :=
  { method := ofString "GET"
    url :=
      { host := ofString "h.test", path := ofString "/p", query := some query
        host_ok := by decide, path_ok := by decide, query_ok := by simpa using h }
    headers := [] }

/-- The page of `/p?a=1&b=2` is gone after its `PURGE`. -/
theorem purge_removes_hit_sorted : ¬ ServedFrom Ns.bytesHash (runs (step Ns.bytesHash) (purgeUrl
          (runs (step Ns.bytesHash) (.init 16)
            [.store (storedKey plainConfig (getP (ofString "a=1&b=2") (by decide)) none) blank 0])
          (ofString "h.test") (ofString "/p") (some (ofString "a=1&b=2"))).1 [])
      (storedKey plainConfig (getP (ofString "a=1&b=2") (by decide)) none) 0 := by
  refine (purge_removes_hit_iff Ns.bytesHash plainConfig (getP (ofString "a=1&b=2") (by decide))
    (.inl rfl) none (by decide)).2 (.inr ⟨_, rfl, by decide, ?_, fun _ => ?_⟩) 16 _ [] 0
      (by simp)
  · decide
  · decide

/-- After the `PURGE` of a URL no lookup of a `GET` or `HEAD` of it is served from the entry that
was there. -/
def PurgeRemovesHit (hasher : Hasher) : Prop :=
  ∀ (cfg : Policy.Config) (r : Request) (variant : Option (Bytes × HeaderMap)),
    (r.method = ofString "GET" ∨ r.method = ofString "HEAD") →
    (storedKey cfg r variant).length ≤ KEY_MAX →
    ∀ slots ops now, ¬ ServedFrom hasher
      (purgeUrl (runs (step hasher) (.init slots) ops) r.url.host r.url.path r.url.query).1
      (storedKey cfg r variant) now

/-- The page of `/p?b=2&a=1` is there after its `PURGE`. -/
theorem purge_misses_unsorted : ¬ PurgeRemovesHit Ns.bytesHash := by
  intro h
  exact h plainConfig (getP (ofString "b=2&a=1") (by decide)) none (.inl rfl) (by decide +kernel) 16
    [.store (storedKey plainConfig (getP (ofString "b=2&a=1") (by decide)) none) blank 0] 0
    (servedFrom_of_missed (by decide) (by decide))

end Askr.Policy
