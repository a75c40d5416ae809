import Askr.Ns
import Askr.Shm

/-!
# The response cache

`rcache.rs`: whole responses in a fixed-slot table, looked up by the hash of their key along a
window of `PROBE` slots, and a second table with a generation for every tag that was ever forgotten.
An entry is valid while the generations of its tags are those it was stored with.

A lookup ends at an empty slot and walks on over a tombstone. `peek`, `purge_url` and `ban_glob`
leave tombstones, `flush_app` and the expiry sweep of `restore` leave empty slots. The clock is an
argument of every operation that reads it, the hash is any `Hasher`, and generations are words that
wrap. The headers of a response are stored as one text and read back by `parseHdrBlob`.
-/

namespace Askr.Rcache

open Askr.Ns Function List Bytes

/-! ## Constants -/

def HDR_MAX : Nat := 8 * 1024
def BODY_MAX : Nat := 128 * 1024
/-- Tags one cached response may carry. -/
def MAX_TAGS : Nat := 8
/-- The probe window, of entries and of tags. -/
def PROBE : Nat := 16
def TAG_SLOTS : Nat := 4096
/-- Bytes of the key kept per entry. -/
def KEY_MAX : Nat := 512

/-! ## Headers -/

abbrev Headers := List (Bytes × Bytes)

/-- `hdr_blob`: one `name: value` line for each header. -/
def hdrBlob (headers : Headers) : Bytes :=
  headers.flatMap fun (k, v) => k ++ [58, 32] ++ v ++ [13, 10]

/-- `split("\r\n")`. -/
def splitCrlf : Bytes → List Bytes
  | [] => [[]]
  | 13 :: 10 :: r => [] :: splitCrlf r
  | b :: r => (splitCrlf r).modifyHead (b :: ·)

/-- `split_once(':')`, both halves trimmed. -/
def hdrLine (l : Bytes) : Option (Bytes × Bytes) :=
  match l.dropWhile (· ≠ 58) with
  | [] => none
  | _ :: v => some (trim (l.takeWhile (· ≠ 58)), trim v)

def parseHdrBlob (raw : Bytes) : Headers :=
  ((splitCrlf raw).filter (· ≠ [])).filterMap hdrLine

theorem mem_of_mem_splitCrlf {raw l : Bytes} {b : UInt8} (hl : l ∈ splitCrlf raw) (hb : b ∈ l) :
    b ∈ raw := by
  fun_induction splitCrlf raw generalizing l with
  | case1 =>
    rw [mem_singleton.1 hl] at hb
    exact hb
  | case2 r ih =>
    rcases mem_cons.1 hl with rfl | hl
    · cases hb
    · exact .tail _ (.tail _ (ih hl hb))
  | case3 c r _ ih =>
    cases hs : splitCrlf r with
    | nil => simp [hs] at hl
    | cons x xs =>
      rw [hs, modifyHead_cons] at hl
      rcases mem_cons.1 hl with rfl | hl
      · rcases mem_cons.1 hb with rfl | hb
        · exact .head _
        · exact .tail _ (ih (hs ▸ .head _) hb)
      · exact .tail _ (ih (hs ▸ .tail _ hl) hb)

theorem mem_of_mem_parseHdrBlob {raw k v : Bytes} {b : UInt8} (h : (k, v) ∈ parseHdrBlob raw)
    (hb : b ∈ v) : b ∈ raw := by
  obtain ⟨l, hl, hline⟩ := mem_filterMap.1 h
  have hmem : b ∈ l := by
    rw [hdrLine] at hline
    split at hline
    · cases hline
    · rename_i c w hdrop
      cases hline
      have hsub := (dropWhile_suffix (l := l) (· ≠ 58)).subset
      rw [hdrop] at hsub
      exact hsub (.tail _ (mem_of_mem_trim hb))
  exact mem_of_mem_splitCrlf (mem_of_mem_filter hl) hmem

theorem splitCrlf_append {p : Bytes} (hp : 13 ∉ p) (r : Bytes) :
    splitCrlf (p ++ r) = (splitCrlf r).modifyHead (p ++ ·) := by
  induction p with
  | nil =>
    rw [nil_append]
    cases splitCrlf r <;> rfl
  | cons b p ih =>
    have hb : b ≠ 13 := fun h => hp (h ▸ .head _)
    rw [cons_append, splitCrlf, ih fun h => hp (.tail _ h), modifyHead_modifyHead]
    · rfl
    · rintro s rfl
      exact absurd rfl hb

theorem splitCrlf_ne_nil (r : Bytes) : splitCrlf r ≠ [] := by
  fun_induction splitCrlf r with
  | case1 | case2 => simp
  | case3 b r _ ih => simpa using ih

theorem hdrLine_append {k : Bytes} (hk : 58 ∉ k) (v : Bytes) :
    hdrLine (k ++ [58, 32] ++ v) = some (trim k, trim (32 :: v)) := by
  have hall : ∀ b ∈ k, decide (b ≠ 58) = true := fun b hb => by
    simpa using fun h : b = 58 => hk (h ▸ hb)
  rw [hdrLine, append_assoc, dropWhile_append_of_pos hall,
    takeWhile_append_of_pos hall]
  simp

theorem hdrBlob_cons (k v : Bytes) (headers : Headers) :
    hdrBlob ((k, v) :: headers) = k ++ [58, 32] ++ (v ++ 13 :: 10 :: hdrBlob headers) := by
  simp [hdrBlob]

theorem parseHdrBlob_cons {k : Bytes} (v : Bytes) (headers : Headers) (hk : 13 ∉ k) (hk' : 58 ∉ k) :
    ∃ v' rest, parseHdrBlob (hdrBlob ((k, v) :: headers)) = (trim k, v') :: rest := by
  obtain ⟨l, ls, hls⟩ :=
    exists_cons_of_ne_nil (splitCrlf_ne_nil (v ++ 13 :: 10 :: hdrBlob headers))
  rw [hdrBlob_cons, parseHdrBlob, splitCrlf_append (by simpa using hk), hls, modifyHead_cons,
    filter_cons_of_pos (by simp), filterMap_cons_some (hdrLine_append hk' l)]
  exact ⟨_, _, rfl⟩

theorem splitCrlf_line {l : Bytes} (hl : ¬ [13, 10] <:+: l) (hlast : ∀ p, l ≠ p ++ [13])
    (r : Bytes) : splitCrlf (l ++ 13 :: 10 :: r) = l :: splitCrlf r := by
  induction l with
  | nil => rfl
  | cons b l ih =>
    rw [cons_append, splitCrlf, ih (fun h => hl (h.trans (suffix_cons b l).isInfix))
      fun p h => hlast (b :: p) (by rw [h, cons_append])]
    · rfl
    · rintro s rfl h
      cases l with
      | nil => exact hlast [] rfl
      | cons c l =>
        obtain ⟨rfl, -⟩ := List.cons.inj h
        exact hl ⟨[], l, rfl⟩

/-- What a response was stored with is what is read back, for names that a header can have and
values without a line break. -/
theorem parseHdrBlob_hdrBlob {headers : Headers}
    (hk : ∀ h ∈ headers, h.1 ≠ [] ∧ 58 ∉ h.1 ∧ 13 ∉ h.1 ∧ 10 ∉ h.1 ∧ trim h.1 = h.1)
    (hv : ∀ h ∈ headers, trim h.2 = h.2 ∧ ¬ [13, 10] <:+: h.2) :
    parseHdrBlob (hdrBlob headers) = headers := by
  induction headers with
  | nil => rfl
  | cons h headers ih =>
    obtain ⟨k, v⟩ := h
    obtain ⟨-, hcolon, hcr, -, htrim⟩ := hk _ (.head _)
    obtain ⟨hv0, hcrlf⟩ := hv _ (.head _)
    have hrest := ih (fun h hh => hk h (.tail _ hh)) fun h hh => hv h (.tail _ hh)
    rw [hdrBlob_cons, parseHdrBlob, splitCrlf_append (by simpa using hcr),
      splitCrlf_line hcrlf (ne_append_of_trim hv0 (by decide)), modifyHead_cons,
      filter_cons_of_pos (by simp), filterMap_cons_some (hdrLine_append hcolon v), htrim,
      trim_cons (by decide), hv0]
    exact congrArg _ hrest

theorem parseHdrBlob_hdrBlob_two : parseHdrBlob (hdrBlob [([65], [98, 58, 10, 99]), ([65], [])]) =
      [([65], [98, 58, 10, 99]), ([65], [])] :=
  parseHdrBlob_hdrBlob (by decide) (by decide)

/-! ## Entries and tags -/

/-- One slot of the table. `key` is `key_bytes[..key_len]`, `tags` pairs the hash of each tag with
its generation at store time, `app` is the owner. -/
structure Entry where
  state : SlotState
  keyHash : Nat
  /-- Fresh deadline, in seconds; `0` is never. -/
  expiresAt : Nat
  /-- Hard deadline; `0` is never. -/
  staleUntil : Nat
  /-- Stale-if-error deadline; `0` is off. -/
  errorUntil : Nat
  status : Nat
  app : Option App
  key : Bytes
  tags : List (Nat × Nat)
  hdr : Bytes
  body : Bytes

def Entry.zeroed : Entry :=
  { state := .empty, keyHash := 0, expiresAt := 0, staleUntil := 0, errorUntil := 0, status := 0,
    app := none, key := [], tags := [], hdr := [], body := [] }

/-- One slot of the tag table; `hash = 0` is a free slot. -/
structure TagGen where
  hash : Nat
  gen : Nat

structure Cache where
  slots : Nat
  /-- `init` maps at least sixteen slots. -/
  slots_ge : PROBE ≤ slots
  entry : Nat → Entry
  tag : Nat → TagGen

/-- `init`: the zeroed table. -/
def Cache.init (slots : Nat) : Cache :=
  { slots := max slots 16, slots_ge := Nat.le_max_right _ _,
    entry := fun _ => .zeroed, tag := fun _ => ⟨0, 0⟩ }

def Cache.set (c : Cache) (i : Nat) (e : Entry) : Cache :=
  { c with entry := update c.entry i e }

/-- The table with the state word of slot `i` written. -/
def Cache.mark (c : Cache) (i : Nat) (st : SlotState) : Cache :=
  c.set i { c.entry i with state := st }

section
variable (c : Cache) (i : Nat) (e : Entry) (st : SlotState)

@[simp] theorem Cache.set_slots : (c.set i e).slots = c.slots := rfl
@[simp] theorem Cache.set_tag : (c.set i e).tag = c.tag := rfl
@[simp] theorem Cache.set_entry : (c.set i e).entry = update c.entry i e := rfl
@[simp] theorem Cache.mark_slots : (c.mark i st).slots = c.slots := rfl
@[simp] theorem Cache.mark_entry :
    (c.mark i st).entry = update c.entry i { c.entry i with state := st } := rfl

end

theorem Cache.slots_pos (c : Cache) : 0 < c.slots := Nat.lt_of_lt_of_le (by decide) c.slots_ge

/-- `hash_bytes`: the hash, with `0` kept for a free tag slot. -/
def hashBytes (hasher : Hasher) (b : Bytes) : Nat :=
  let v := (hasher b).toNat
  if v = 0 then 1 else v

theorem hashBytes_ne_zero (hasher : Hasher) (b : Bytes) : hashBytes hasher b ≠ 0 := by
  simp only [hashBytes]
  split <;> omega

/-- The slots an entry of hash `h` may be in. -/
def Cache.probe (c : Cache) (h : Nat) : List Nat := window PROBE c.slots h

theorem Cache.lt_of_mem_probe {c : Cache} {h i : Nat} (hi : i ∈ c.probe h) : i < c.slots :=
  mem_window c.slots_pos hi

@[simp] theorem Cache.probe_set (c : Cache) (i : Nat) (e : Entry) (h : Nat) :
    (c.set i e).probe h = c.probe h := rfl

/-! ## Tag generations -/

/-- The slots a tag of hash `h` may be in. -/
def tagWindow (h : Nat) : List Nat :=
  (List.range PROBE).map fun i => (h % TAG_SLOTS + i) % TAG_SLOTS

/-- The loop of `tag_gen`. -/
def tagGenIn (tag : Nat → TagGen) (h : Nat) : List Nat → Nat
  | [] => 0
  | i :: w =>
    if (tag i).hash = h then (tag i).gen
    else if (tag i).hash = 0 then 0
    else tagGenIn tag h w

/-- `tag_gen`: the current generation of a tag hash, `0` for a tag the table does not hold. -/
def tagGen (tag : Nat → TagGen) (h : Nat) : Nat := tagGenIn tag h (tagWindow h)

/-- The loop of `forget_tag`. When the window is full of other tags, the home slot is taken over. -/
def forgetTagIn (tag : Nat → TagGen) (h : Nat) : List Nat → Nat → TagGen
  | [] => update tag (h % TAG_SLOTS) ⟨h, u64Add (tag (h % TAG_SLOTS)).gen 1⟩
  | i :: w =>
    if (tag i).hash = h then update tag i ⟨h, u64Add (tag i).gen 1⟩
    else if (tag i).hash = 0 then update tag i ⟨h, 1⟩
    else forgetTagIn tag h w

/-- `forget_tag`: bump a tag's generation. -/
def forgetTag (hasher : Hasher) (c : Cache) (t : Bytes) : Cache :=
  let h := hashBytes hasher t
  { c with tag := forgetTagIn c.tag h (tagWindow h) }

/-! ## Lookup -/

/-- A cached response, as it is served. -/
structure Cached where
  status : Nat
  headers : Headers
  body : Bytes
  stale : Bool
  errorOnly : Bool

/-- The widest deadline of an entry; `0` is never. -/
def Entry.retain (e : Entry) : Nat := max e.staleUntil e.errorUntil

/-- Past every deadline. -/
def Entry.expired (e : Entry) (now : Nat) : Bool := e.retain ≠ 0 && e.retain < now

/-- Does some tag of the entry have another generation now than when it was stored? -/
def Entry.tagInvalid (e : Entry) (tag : Nat → TagGen) : Bool :=
  e.tags.any fun (th, tg) => tagGen tag th ≠ tg

/-- The response `peek` builds from an entry. -/
def Entry.cached (e : Entry) (now : Nat) : Cached :=
  let swrStale := e.expiresAt ≠ 0 && e.expiresAt < now
  let errorOnly := swrStale && (e.staleUntil = 0 || e.staleUntil < now)
  { status := e.status, headers := parseHdrBlob e.hdr, body := e.body,
    stale := swrStale && !errorOnly, errorOnly }

/-- The loop of `peek`: the table it leaves, and the slot it serves from. An expired or invalidated
entry is made a tombstone and ends the walk. -/
def peekIn (c : Cache) (h now : Nat) : List Nat → Cache × Option Nat
  | [] => (c, none)
  | i :: w =>
    match (c.entry i).state with
    | .empty => (c, none)
    | .tombstone => peekIn c h now w
    | .occupied =>
      if (c.entry i).keyHash ≠ h then peekIn c h now w
      else if (c.entry i).expired now then (c.mark i .tombstone, none)
      else if (c.entry i).tagInvalid c.tag then (c.mark i .tombstone, none)
      else (c, some i)

/-- The slot `peek` serves a key from, with the table it leaves. -/
def peekSlot (hasher : Hasher) (c : Cache) (key : Bytes) (now : Nat) : Cache × Option Nat :=
  let h := hashBytes hasher key
  peekIn c h now (c.probe h)

def peek (hasher : Hasher) (c : Cache) (key : Bytes) (now : Nat) : Cache × Option Cached :=
  let (c', hit) := peekSlot hasher c key now
  (c', hit.map fun i => (c.entry i).cached now)

/-- `get`: a `peek` that does not count an entry kept only as an error fallback. -/
def get (hasher : Hasher) (c : Cache) (key : Bytes) (now : Nat) : Cache × Option Cached :=
  let (c', hit) := peek hasher c key now
  (c', hit.filter fun x => !x.errorOnly)

def staleOnError (hasher : Hasher) (c : Cache) (key : Bytes) (now : Nat) : Cache × Option Cached :=
  peek hasher c key now

/-! ## Store -/

/-- What is stored under a key: the arguments of `store` besides the key. -/
structure Page where
  status : Nat
  headers : Headers
  body : Bytes
  ttl : Nat
  swr : Nat
  /-- The `stale-if-error` grace. -/
  sie : Nat
  tags : List Bytes
  app : Option App

def Page.expires (p : Page) (now : Nat) : Nat := if p.ttl > 0 then u64Add now p.ttl else 0

/-- `write_entry`: the slot's new contents. The key is cut at `KEY_MAX`. -/
def writeEntry (hasher : Hasher) (tag : Nat → TagGen) (key : Bytes) (p : Page) (now : Nat) :
    Entry :=
  { state := .occupied
    keyHash := hashBytes hasher key
    expiresAt := p.expires now
    staleUntil := if p.ttl > 0 ∧ p.swr > 0 then u64Add (p.expires now) p.swr else p.expires now
    errorUntil := if p.ttl > 0 ∧ p.sie > 0 then u64Add (p.expires now) p.sie else 0
    status := p.status
    app := p.app
    key := key.take KEY_MAX
    tags := p.tags.map fun t => (hashBytes hasher t, tagGen tag (hashBytes hasher t))
    hdr := hdrBlob p.headers
    body := p.body }

/-- The loop of `store`: the first slot of the window that is empty or was last written for this
hash, else the first tombstone, else the first live slot. -/
def storeIn (c : Cache) (h : Nat) : List Nat → Option Nat → Option Nat → Nat
  | [], reuse, target => (reuse.or target).getD (h % c.slots)
  | i :: w, reuse, target =>
    if (c.entry i).state = .empty ∨ (c.entry i).keyHash = h then i
    else if (c.entry i).state = .tombstone then storeIn c h w (reuse.or (some i)) target
    else storeIn c h w reuse (target.or (some i))

/-- The slot `store` writes for a key. -/
def storeSlot (hasher : Hasher) (c : Cache) (key : Bytes) : Nat :=
  storeIn c (hashBytes hasher key) (c.probe (hashBytes hasher key)) none none

/-- A page that fits an entry: `store` refuses the others. -/
def Page.fits (p : Page) : Bool :=
  (hdrBlob p.headers).length ≤ HDR_MAX && p.body.length ≤ BODY_MAX && p.tags.length ≤ MAX_TAGS

def store (hasher : Hasher) (c : Cache) (key : Bytes) (p : Page) (now : Nat) : Cache × Bool :=
  if p.fits then
    (c.set (storeSlot hasher c key) (writeEntry hasher c.tag key p now), true)
  else (c, false)

/-! ## Removal -/

/-- Where `glob_match` is: the pattern and the text from the two positions on, and, once a `*` was
met, the pattern after it and the text it has not taken yet. -/
abbrev GlobPos := Bytes × Bytes × Option (Bytes × Bytes)

/-- One turn of the loop of `glob_match`, with text left: match one byte, open a `*`, or give the
last `*` one more byte; `none` is a mismatch with no `*` to go back to. -/
def globStep (p : Bytes) (t : UInt8) (ts : Bytes) (star : Option (Bytes × Bytes)) :
    Option GlobPos :=
  let back := match star with
    | some (ps, _ :: m) => some (ps, m, some (ps, m))
    | _ => none
  match p with
  | [] => back
  | a :: ps =>
    if a = 63 ∨ a = t then some (ps, ts, star)
    else if a = 42 then some (ps, t :: ts, some (ps, t :: ts))
    else back

/-- The loop of `glob_match`. -/
def globLoop : Nat → GlobPos → Bool
  | _, (p, [], _) => p.all (· = 42)
  | 0, (_, _ :: _, _) => false
  | fuel + 1, (p, t :: ts, star) =>
    match globStep p t ts star with
    | none => false
    | some pos => globLoop fuel pos

/-- `glob_match`: a glob with `*` and `?`. -/
def globMatch (pattern text : Bytes) : Bool :=
  globLoop ((text.length + 1) * (text.length + pattern.length + 2)) (pattern, text, none)

/-- The loop over all slots that `scan_invalidate`, `flush_app` and the sweep of `restore` share:
write a state word where `m` says so, and count the writes. -/
def sweepIn (m : Entry → Option SlotState) : List Nat → Cache × Nat → Cache × Nat
  | [], r => r
  | i :: w, (c, n) =>
    match m (c.entry i) with
    | some st => sweepIn m w (c.mark i st, n + 1)
    | none => sweepIn m w (c, n)

/-- `sweepIn` over every slot of the table. -/
def Cache.sweep (c : Cache) (m : Entry → Option SlotState) : Cache × Nat :=
  sweepIn m (List.range c.slots) (c, 0)

/-- What `flush_app` writes: an empty slot wherever the application was the last to write. -/
def dropApp (app : App) (e : Entry) : Option SlotState :=
  if e.app = some app then some .empty else none

def flushApp (c : Cache) (app : App) : Cache := (c.sweep (dropApp app)).1

/-- `flush_all`: empty every slot. -/
def flushAll (c : Cache) : Cache := (c.sweep fun _ => some .empty).1

/-- What `scan_invalidate` writes: a tombstone for a live slot whose key is wanted. -/
def buryWanted (want : Bytes → Bool) (e : Entry) : Option SlotState :=
  if e.state = .occupied ∧ want e.key then some .tombstone else none

def scanInvalidate (c : Cache) (want : Bytes → Bool) : Cache × Nat := c.sweep (buryWanted want)

/-- `key_parts`: method, host and path with query of a stored key. -/
def keyParts (key : Bytes) : Option (Bytes × Bytes × Bytes) :=
  match key.splitOn 0 with
  | method :: host :: pq :: _ => some (method, host, pq)
  | _ => none

/-- The keys `purge_url` and `ban_glob` look at: a `GET` or `HEAD` of the host whose path and query
satisfy `want`. -/
def wantUrl (host : Bytes) (want : Bytes → Bool) (key : Bytes) : Bool :=
  match keyParts key with
  | none => false
  | some (method, khost, pq) =>
    (method == ofString "GET" || method == ofString "HEAD") &&
      eqIgnoreAsciiCase khost host && want pq

/-- The comparison of `purge_url`: the exact URL, or, without a query, the path with any query. -/
def wantPq (path : Bytes) (query : Option Bytes) (pq : Bytes) : Bool :=
  match query with
  | some q => pq == path ++ [63] ++ q
  | none => pq == path || (path ++ [63]).isPrefixOf pq

def purgeUrl (c : Cache) (host path : Bytes) (query : Option Bytes) : Cache × Nat :=
  scanInvalidate c (wantUrl host (wantPq path query))

/-- The comparison of `ban_glob`: the path only, and only when it is text. -/
def wantPath (pattern pq : Bytes) : Bool :=
  isUtf8 (pq.takeWhile (· ≠ 63)) && globMatch pattern (pq.takeWhile (· ≠ 63))

def banGlob (c : Cache) (host pattern : Bytes) : Cache × Nat :=
  scanInvalidate c (wantUrl host (wantPath pattern))

/-! ## Persistence -/

def DUMP_MAGIC : Bytes := ofString "ASKRRC01"
def DUMP_VERSION : Nat := 2
/-- `size_of::<Entry>()`. -/
def ENTRY_SIZE : Nat := 139984

/-- A dump file: the header that `restore` checks, the entries and the tags. -/
structure Dump where
  magic : Bytes
  version : Nat
  entrySize : Nat
  slots : Nat
  tagSlots : Nat
  appStamp : Nat
  entry : Nat → Entry
  tag : Nat → TagGen

/-- `dump`: the table verbatim. -/
def dump (c : Cache) (appStamp : Nat) : Dump :=
  { magic := DUMP_MAGIC, version := DUMP_VERSION, entrySize := ENTRY_SIZE, slots := c.slots,
    tagSlots := TAG_SLOTS, appStamp, entry := c.entry, tag := c.tag }

def Dump.accepted (d : Dump) (c : Cache) (appStamp : Nat) : Bool :=
  d.magic == DUMP_MAGIC && d.version == DUMP_VERSION && d.entrySize == ENTRY_SIZE &&
    d.slots == c.slots && d.tagSlots == TAG_SLOTS && d.appStamp == appStamp

/-- What the sweep of `restore` writes: an empty slot for an entry past every deadline. -/
def dropExpired (now : Nat) (e : Entry) : Option SlotState :=
  if e.state = .occupied ∧ e.expired now then some .empty else none

/-- `restore`: copy an accepted dump into the table and empty the slots that expired meanwhile. A
file that is missing or cut short is `none`. -/
def restore (c : Cache) (file : Option Dump) (appStamp now : Nat) : Cache × Nat :=
  match file with
  | none => (c, 0)
  | some d =>
    if d.accepted c appStamp then
      let c' := { c with entry := d.entry, tag := d.tag }
      ((c'.sweep (dropExpired now)).1,
        (List.range c.slots).countP fun i =>
          (d.entry i).state = .occupied && !(d.entry i).expired now)
    else (c, 0)

/-! ## What a sweep does to one slot -/

theorem sweepIn_entry (m : Entry → Option SlotState) (w : List Nat) (hw : w.Nodup) :
    ∀ r : Cache × Nat, (sweepIn m w r).1.slots = r.1.slots ∧ (sweepIn m w r).1.tag = r.1.tag ∧
      ∀ i, (sweepIn m w r).1.entry i =
        if i ∈ w then { r.1.entry i with state := (m (r.1.entry i)).getD (r.1.entry i).state }
        else r.1.entry i := by
  induction w with
  | nil => intro r; exact ⟨rfl, rfl, fun i => by simp [sweepIn]⟩
  | cons a w ih =>
    rintro ⟨c, n⟩
    obtain ⟨ha, hw⟩ := nodup_cons.1 hw
    cases hm : m (c.entry a) with
    | none =>
      simp only [sweepIn, hm]
      obtain ⟨h1, h2, h3⟩ := ih hw (c, n)
      refine ⟨h1, h2, fun i => ?_⟩
      rw [h3 i]
      by_cases hi : i = a
      · subst hi; simp [ha, hm]
      · simp [hi]
    | some st =>
      simp only [sweepIn, hm]
      obtain ⟨h1, h2, h3⟩ := ih hw (c.mark a st, n + 1)
      refine ⟨h1, h2, fun i => ?_⟩
      rw [h3 i]
      by_cases hi : i = a
      · subst hi; simp [ha, hm]
      · simp [hi]

section sweep
variable (c : Cache) (m : Entry → Option SlotState)

@[simp] theorem Cache.sweep_slots : (c.sweep m).1.slots = c.slots :=
  (sweepIn_entry m _ nodup_range (c, 0)).1

@[simp] theorem Cache.sweep_tag : (c.sweep m).1.tag = c.tag :=
  (sweepIn_entry m _ nodup_range (c, 0)).2.1

theorem Cache.sweep_entry_ge {i : Nat} (hi : c.slots ≤ i) : (c.sweep m).1.entry i = c.entry i := by
  rw [Cache.sweep, (sweepIn_entry m _ nodup_range (c, 0)).2.2 i,
    if_neg (by simpa using hi)]

theorem Cache.sweep_entry {i : Nat} (hi : i < c.slots) : (c.sweep m).1.entry i =
    { c.entry i with state := (m (c.entry i)).getD (c.entry i).state } := by
  rw [Cache.sweep, (sweepIn_entry m _ nodup_range (c, 0)).2.2 i, if_pos (mem_range.2 hi)]

@[simp] theorem Cache.probe_sweep (h : Nat) : (c.sweep m).1.probe h = c.probe h := by
  rw [Cache.probe, Cache.sweep_slots, Cache.probe]

end sweep

end Askr.Rcache
