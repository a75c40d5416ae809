import Askr.Policy.Purge
import Askr.Policy.Store
import Askr.Rcache.Own

/-!
# Variants do not mix

A response that varies on a header is for requests with the same value of it. A live slot was
written by a store of the run (`each_after`), so what a lookup finds is the response of a store,
whatever other workers do between the two stores of `maybe_store` and the two fetches of
`resolve_cached`.

`resolve_cached` gets to a variant by the bytes of its key. They determine the values as long as the
key says what the request said (`Told`): the names come from the first `Vary` line and have no `=`
in them, and the values can be read as text. Then `vary_isolation` follows from `suffix_inj`, unless
two keys have one hash. `variants_mix` has a response with two `Vary` lines.
-/

namespace Askr.Policy

open Bytes Rcache Option List Run

/-! ## What a response varies on -/

/-- The headers that the `Vary` lines of a response name, on any of its lines. -/
def namedHeaders (headers : Headers) : List Bytes :=
  (headers.filter fun (k, _) => eqIgnoreAsciiCase k (ofString "vary")).flatMap fun (_, v) =>
    varyNames (trim v)

/-- What a request says for a header: its lines as one value. A header that is not there has none,
so the value is empty. -/
def headerText (h : HeaderMap) (name : Bytes) : Bytes :=
  (ofString ", ").intercalate (getAll h name)

/-- The two requests carry the same value for every header that the response varies on and the key
does not cover. -/
def Agree (a : StoreArgs) (h : HeaderMap) : Prop :=
  ∀ n ∈ namedHeaders a.resp.headers, covered a.varyUa n = false →
    headerText a.requestHeaders n = headerText h n

/-- Every line of the header is text. -/
def Readable (h : HeaderMap) (n : Bytes) : Prop := ∀ v ∈ getAll h n, v.all visible = true

/-- A text that takes part in a key without being mistaken for another part of it. -/
def Clean (names : Bytes) : Prop := ∀ b ∈ names, b ≠ 61 ∧ b ≠ Ns.SEP

instance (a : StoreArgs) (h : HeaderMap) : Decidable (Agree a h) :=
  inferInstanceAs (Decidable (∀ n ∈ _, _ → _))

instance (h : HeaderMap) (n : Bytes) : Decidable (Readable h n) :=
  inferInstanceAs (Decidable (∀ v ∈ _, _))

instance (names : Bytes) : Decidable (Clean names) := decidableBAll _ names

/-- The first `Vary` line, which is the one that is read. -/
def firstVary (headers : Headers) : Bytes :=
  ((headerValue headers (ofString "vary")).map trim).getD []

/-- **The key says what the request said**: the headers that matter are on the first `Vary` line,
that line has no `=` or separator in it, and the request's values for them are text. -/
structure Told (a : StoreArgs) : Prop where
  first : ∀ n ∈ namedHeaders a.resp.headers, covered a.varyUa n = false →
    n ∈ varyNames (firstVary a.resp.headers)
  clean : Clean (firstVary a.resp.headers)
  readable : ∀ n ∈ namedHeaders a.resp.headers, covered a.varyUa n = false →
    Readable a.requestHeaders n

/-! ## Taking a suffix apart -/

theorem Clean.varyNames {names n : Bytes} (h : Clean names) (hn : n ∈ varyNames names) :
    (61 : UInt8) ∉ n := by
  intro hmem
  obtain ⟨p, hp, rfl⟩ := mem_map.1 (mem_of_mem_filter hn)
  obtain ⟨b, hb, hb'⟩ := mem_map.1 hmem
  have hb61 : b = 61 := eq_of_lowerByte (by decide) hb'
  exact (h b (mem_of_mem_splitOn hp (mem_of_mem_trim hb))).1 hb61

theorem sep_notMem_joined (h : HeaderMap) (n : Bytes) : Ns.SEP ∉ joined h n := by
  intro hmem
  rcases mem_of_mem_intercalate hmem with hmem | ⟨v, hv, hmem⟩
  · exact absurd hmem (by decide)
  · obtain ⟨w, -, hw⟩ := mem_filterMap.1 hv
    rw [toStr] at hw
    split at hw
    · rename_i hvis
      cases hw
      exact absurd (all_eq_true.1 hvis _ hmem) (by decide)
    · cases hw

theorem Readable.joined_eq {h : HeaderMap} {n : Bytes} (hr : Readable h n) :
    joined h n = headerText h n := by
  rw [joined, headerText]
  congr 1
  refine (filterMap_congr fun v hv => ?_).trans filterMap_some
  rw [toStr, if_pos (hr v hv)]

theorem suffix_inj {l l' : List Bytes} {h h' : HeaderMap} (hl : ∀ n ∈ l, (61 : UInt8) ∉ n)
    (hl' : ∀ n ∈ l', (61 : UInt8) ∉ n)
    (heq : l.flatMap (suffixPart h) = l'.flatMap (suffixPart h')) :
    l = l' ∧ ∀ n ∈ l, joined h n = joined h' n := by
  induction l generalizing l' with
  | nil =>
    cases l' with
    | nil => exact ⟨rfl, by simp⟩
    | cons n l' =>
      have hlen := congrArg length heq
      simp [suffixPart] at hlen
  | cons n l ih =>
    cases l' with
    | nil =>
      have hlen := congrArg length heq
      simp [suffixPart] at hlen
    | cons n' l' =>
      simp only [flatMap_cons, suffixPart, append_assoc, cons_append,
        nil_append] at heq
      obtain ⟨rfl, heq⟩ := append_cons_inj (hl n (.head _)) (hl' n' (.head _)) heq
      obtain ⟨hval, heq⟩ :=
        append_cons_inj (sep_notMem_joined h n) (sep_notMem_joined h' n) heq
      obtain ⟨rfl, hrest⟩ := ih (fun m hm => hl m (.tail _ hm)) (fun m hm => hl' m (.tail _ hm)) heq
      refine ⟨rfl, fun m hm => ?_⟩
      rcases mem_cons.1 hm with rfl | hm
      exacts [hval, hrest m hm]

theorem secondaryKey_inj {p names names' : Bytes} {h h' : HeaderMap} (hc : Clean names)
    (hc' : Clean names') (heq : secondaryKey p names h = secondaryKey p names' h') {n : Bytes}
    (hn : n ∈ varyNames names) : n ∈ varyNames names' ∧ joined h n = joined h' n := by
  have hsuffix : varySuffix names h = varySuffix names' h' := by
    simpa [secondaryKey] using heq
  obtain ⟨hnames, hvalues⟩ := suffix_inj
    (fun m hm => hc.varyNames (mem_sort.1 (Bytes.mem_dedup.1 hm)))
    (fun m hm => hc'.varyNames (mem_sort.1 (Bytes.mem_dedup.1 hm))) hsuffix
  have hmem := Bytes.mem_dedup.2 (mem_sort.2 hn)
  exact ⟨mem_sort.1 (Bytes.mem_dedup.1 (hnames ▸ hmem)), hvalues n hmem⟩

theorem secondaryKey_ne (p names : Bytes) (h : HeaderMap) : secondaryKey p names h ≠ p := by
  intro heq
  have hlen := congrArg length heq
  simp [secondaryKey] at hlen

/-! ## Which entry a lookup answers with -/

/-- The entry that is fetched for a key. -/
def Fetch.entry (hasher : Hasher) (f : Fetch) (c : Cache) (key : Bytes) (now : Nat) :
    Option Entry :=
  ((peekSlot hasher c key now).2.map c.entry).filter fun e =>
    f ≠ .get || !(e.cached now).errorOnly

def indexNames (e : Entry) : Option Bytes :=
  if e.status = 0 then headerValue (parseHdrBlob e.hdr) VARY_INDEX_HEADER else none

/-- The entry that `resolve_cached` answers with, and whether it is a variant. The variant is
fetched from `c'`, which is what other workers have made of the table `c` by then. -/
def resolveEntry (hasher : Hasher) (f : Fetch) (c c' : Cache) (primary : Bytes) (h : HeaderMap)
    (now now' : Nat) : Option (Entry × Bool) :=
  (f.entry hasher c primary now).bind fun e =>
    match indexNames e with
    | none => some (e, false)
    | some names =>
      ((f.entry hasher c' (secondaryKey primary names h) now').filter fun e' =>
        (indexNames e').isNone).map fun e' => (e', true)

/-- The keys a lookup hashes: that of the request, and that of a variant when an index is there. -/
def keysTried (hasher : Hasher) (f : Fetch) (c : Cache) (primary : Bytes) (h : HeaderMap)
    (now : Nat) : List Bytes :=
  primary :: ((f.entry hasher c primary now).bind indexNames).toList.map fun names =>
    secondaryKey primary names h

theorem isVaryIndex_cached (e : Entry) (t : Nat) :
    isVaryIndex (e.cached t) = (indexNames e).isSome := by
  by_cases hst : e.status = 0 <;> simp [isVaryIndex, Entry.cached, indexNames, hst]

theorem headerValue_of_indexNames {e : Entry} {names : Bytes} (h : indexNames e = some names)
    (t : Nat) : headerValue (e.cached t).headers VARY_INDEX_HEADER = some names := by
  rw [indexNames] at h
  split at h
  · exact h
  · cases h

section
variable {hasher : Hasher} {f : Fetch} {c c' : Cache} {key primary : Bytes} {h : HeaderMap}
  {now now' : Nat} {e : Entry}

theorem Fetch.run_eq (hasher : Hasher) (f : Fetch) (c : Cache) (key : Bytes) (now : Nat) :
    f.run hasher c key now = (step hasher c (.peek key now),
      (f.entry hasher c key now).map fun e => e.cached now) := by
  cases f <;> cases hp : (peekSlot hasher c key now).2 <;>
    simp [Fetch.run, Fetch.entry, Rcache.get, Rcache.peek, Rcache.staleOnError, step, hp,
      Option.filter]

theorem Fetch.table_of_entry (he : f.entry hasher c key now = some e) :
    step hasher c (.peek key now) = c := by
  obtain ⟨i, hhit, -⟩ := map_eq_some_iff.1 (filter_eq_some_iff.1 he).1
  rcases peekIn_table c (hashBytes hasher key) now (c.probe (hashBytes hasher key)) with
    htab | ⟨-, -, -, hnone, -⟩
  · exact htab
  · rw [peekSlot, hnone] at hhit
    cases hhit

theorem Fetch.live_of_entry (he : f.entry hasher c key now = some e) :
    (∃ i, c.entry i = e ∧ (c.entry i).state = .occupied) ∧ e.keyHash = hashBytes hasher key := by
  obtain ⟨i, hhit, rfl⟩ := map_eq_some_iff.1 (filter_eq_some_iff.1 he).1
  obtain ⟨hfind, hocc, -⟩ := peekIn_hit_iff.1 hhit
  have hend := find?_some hfind
  simp only [ends, hocc, Bool.or_eq_true, Bool.and_eq_true, decide_eq_true_eq] at hend
  exact ⟨⟨i, rfl, hocc⟩, (hend.resolve_left (by simp)).2⟩

/-- **What `resolve_cached` does**: it peeks at the keys it tries, and answers with the entry. -/
theorem resolveCached_eq (hasher : Hasher) (f : Fetch) (c : Cache) (primary : Bytes)
    (h : HeaderMap) (now now' : Nat) : resolveCached hasher f c primary h now now' =
      (runs (step hasher) c
          (zipWith Op.peek (keysTried hasher f c primary h now) [now, now']),
        (resolveEntry hasher f c c primary h now now').map fun (e, variant) =>
          (e.cached (if variant then now' else now), variant)) := by
  rw [resolveCached, resolveEntry, keysTried, Fetch.run_eq]
  cases he : f.entry hasher c primary now with
  | none => rfl
  | some e =>
    have htab := Fetch.table_of_entry he
    cases hn : indexNames e with
    | none => simp [isVaryIndex_cached, hn]
    | some names =>
      simp only [map_some, isVaryIndex_cached, hn, headerValue_of_indexNames hn, htab,
        Fetch.run_eq]
      cases he' : f.entry hasher c (secondaryKey primary names h) now' with
      | none => simp [hn, he', htab]
      | some e' => cases hn' : indexNames e' <;> simp [hn, he', hn', htab, isVaryIndex_cached]

/-- A lookup answers with the entry of its primary key, or an index is there and it answers with the
entry of the variant that the index leads to. -/
theorem resolveEntry_cases {variant : Bool}
    (he : resolveEntry hasher f c c' primary h now now' = some (e, variant)) :
    indexNames e = none ∧ (f.entry hasher c primary now = some e ∨
      ∃ e₀ names, f.entry hasher c primary now = some e₀ ∧ indexNames e₀ = some names ∧
        f.entry hasher c' (secondaryKey primary names h) now' = some e) := by
  obtain ⟨e₀, he₀, he⟩ := bind_eq_some_iff.1 he
  split at he
  · rename_i hn
    cases he
    exact ⟨hn, .inl he₀⟩
  · rename_i names hn
    obtain ⟨e', he', heq⟩ := map_eq_some_iff.1 he
    cases heq
    obtain ⟨he', hn'⟩ := filter_eq_some_iff.1 he'
    exact ⟨isNone_iff_eq_none.1 hn', .inr ⟨e₀, names, he₀, hn, he'⟩⟩

end

/-! ## Runs -/

/-- What is done to the cache: the two stores of `maybe_store`, and anything else but a store. -/
inductive Call where
  | index (a : StoreArgs) (now : Nat)
  | entry (a : StoreArgs) (now : Nat)
  | other (op : Op) (plain : ∀ key page now, op ≠ .store key page now)

def Call.run (codec : Codec) (hasher : Hasher) (c : Cache) : Call → Cache
  | .index a now =>
    match a.refuse, a.appVary with
    | .ok d, some names => (store hasher c a.key (a.indexPage d names) now).1
    | _, _ => c
  | .entry a now =>
    match a.refuse with
    | .ok d => (store hasher c a.entryKey (a.entryPage codec d) now).1
    | .error _ => c
  | .other op _ => step hasher c op

theorem maybeStore_eq (codec : Codec) (hasher : Hasher) (c : Cache) (a : StoreArgs)
    (now now' : Nat) : (maybeStore codec hasher c a now now').1 =
      runs (Call.run codec hasher) c [.index a now, .entry a now'] := by
  simp only [maybeStore, runs_cons, runs_nil, Call.run]
  cases a.refuse <;> cases a.appVary <;> rfl

def Call.stored : Call → Option StoreArgs
  | .index a _ | .entry a _ => some a
  | .other _ _ => none

def stores (calls : List Call) : List StoreArgs := calls.filterMap Call.stored

def after (codec : Codec) (hasher : Hasher) (slots : Nat) (calls : List Call) : Cache :=
  runs (Call.run codec hasher) (.init slots) calls

/-- The entry holds the response of `a`. -/
def StoreArgs.Holds (codec : Codec) (hasher : Hasher) (a : StoreArgs) (e : Entry) : Prop :=
  ∃ d tag now, a.refuse = .ok d ∧ e = writeEntry hasher tag a.entryKey (a.entryPage codec d) now

/-- The entry is the index that the response of `a` asked for. -/
def StoreArgs.Indexes (hasher : Hasher) (a : StoreArgs) (e : Entry) : Prop :=
  ∃ names d tag now, a.appVary = some names ∧
    e = writeEntry hasher tag a.key (a.indexPage d names) now

section
variable {P : Entry → Prop} {codec : Codec} {hasher : Hasher} {c : Cache}

/-- **One call** keeps `P`, if what it is given to store makes such entries only. -/
theorem each_call (hc : Each P c) {call : Call}
    (hP : ∀ a ∈ call.stored, ∀ e, a.Holds codec hasher e ∨ a.Indexes hasher e → P e) :
    Each P (call.run codec hasher c) := by
  cases call with
  | index a now =>
    simp only [Call.run]
    split
    · rename_i d names _ hn
      exact hc.store (hP a rfl _ (.inr ⟨names, d, _, _, hn, rfl⟩))
    · exact hc
  | entry a now =>
    simp only [Call.run]
    split
    · rename_i d hd
      exact hc.store (hP a rfl _ (.inl ⟨d, _, _, hd, rfl⟩))
    · exact hc
  | other op plain =>
    refine hc.keeps fun i => step_keeps hasher c op ?_
    cases op with
    | store key page now => exact absurd rfl (plain key page now)
    | _ => simp [Op.writes]

/-- **Every live slot was written by a store of the run**, as its response or as its index. -/
theorem each_after (codec : Codec) (hasher : Hasher) (slots : Nat) (calls : List Call) :
    Each (fun e => ∃ a ∈ stores calls, a.Holds codec hasher e ∨ a.Indexes hasher e)
      (after codec hasher slots calls) := by
  refine (along_of_mem (D := fun call => ∀ a ∈ call.stored, a ∈ stores calls) _
    fun call hcall a ha => mem_filterMap.2 ⟨call, hcall, ha⟩).inv (I := Each _)
    (fun c call hcall hc => each_call hc fun a ha e he => ⟨a, hcall a ha, he⟩) ?_
  exact each_init slots

end

/-! ## Isolation -/

variable {a : StoreArgs}

theorem firstVary_of_appVary {names : Bytes} (h : a.appVary = some names) :
    firstVary a.resp.headers = names := by
  rw [firstVary, (filter_eq_some_iff.1 h).1]
  rfl

theorem tokens_nil : tokens [] = [] := by decide

theorem covered_of_appVary (h : a.appVary = none) {n : Bytes}
    (hn : n ∈ varyNames (firstVary a.resp.headers)) : covered a.varyUa n = true := by
  obtain ⟨hn, hne⟩ := mem_filter.1 hn
  obtain ⟨s, hs, rfl⟩ := mem_map.1 hn
  have htok : trim s ∈ tokens (firstVary a.resp.headers) := by
    refine mem_filter.2 ⟨mem_map_of_mem hs, ?_⟩
    simpa [toAsciiLowercase] using hne
  have hcov : covered a.varyUa (trim s) = true := by
    rw [StoreArgs.appVary, filter_eq_none_iff] at h
    rw [firstVary] at htok
    cases hv : (headerValue a.resp.headers (ofString "vary")).map trim with
    | none => simp [hv, tokens_nil] at htok
    | some v =>
      have hv' := h v hv
      rw [hv] at htok
      by_cases hnil : v = []
      · simp [hnil, tokens_nil] at htok
      · simp only [hnil, ne_eq, not_false_eq_true, decide_true, Bool.true_and, Bool.not_eq_true',
          Bool.not_eq_false] at hv'
        exact all_eq_true.1 hv' _ htok
  simpa [covered, eqIgnoreAsciiCase_lower] using hcov

theorem StoreArgs.status_of_refuse {d : Directive} (h : a.refuse = .ok d) :
    a.resp.status = 200 := by
  by_contra hne
  rw [StoreArgs.refuse, if_pos hne] at h
  cases h

section
variable {codec : Codec} {hasher : Hasher} {a : StoreArgs} {e : Entry}

theorem StoreArgs.Holds.indexNames_eq (h : a.Holds codec hasher e) : indexNames e = none := by
  obtain ⟨d, tag, now, hd, rfl⟩ := h
  have hst := StoreArgs.status_of_refuse hd
  simp [indexNames, writeEntry, StoreArgs.entryPage, StoreArgs.page, hst]

theorem StoreArgs.Indexes.indexNames_ne (h : a.Indexes hasher e) : indexNames e ≠ none := by
  obtain ⟨names, d, tag, now, -, rfl⟩ := h
  obtain ⟨v, rest, hread⟩ :=
    parseHdrBlob_cons (k := VARY_INDEX_HEADER) names [] (by decide) (by decide)
  have hname : eqIgnoreAsciiCase (trim VARY_INDEX_HEADER) VARY_INDEX_HEADER = true := by decide
  simp [indexNames, writeEntry, StoreArgs.indexPage, StoreArgs.page, headerValue, hread, hname]

theorem StoreArgs.Indexes.clean (h : a.Indexes hasher e) (hc : Clean (firstVary a.resp.headers))
    {names : Bytes} (hn : indexNames e = some names) : Clean names := by
  obtain ⟨names', d, tag, now, hv, rfl⟩ := h
  rw [firstVary_of_appVary hv] at hc
  obtain ⟨⟨k, v⟩, hfind, rfl⟩ := map_eq_some_iff.1 (headerValue_of_indexNames hn 0)
  intro b hb
  have hmem := mem_of_mem_parseHdrBlob (mem_of_find?_eq_some hfind) hb
  simp only [writeEntry, StoreArgs.indexPage, StoreArgs.page, hdrBlob, flatMap_cons,
    flatMap_nil, append_nil, mem_append] at hmem
  rcases hmem with ((hb | hb) | hb) | hb
  · exact (by decide : Clean VARY_INDEX_HEADER) b hb
  · exact (by decide : Clean [58, 32]) b hb
  · exact hc b hb
  · exact (by decide : Clean [13, 10]) b hb

theorem StoreArgs.agree_of_key {names : Bytes} {h : HeaderMap} (ha : Told a) (hc : Clean names)
    (hr : ∀ n ∈ namedHeaders a.resp.headers, covered a.varyUa n = false → Readable h n)
    (hkey : a.entryKey = a.key ∨ a.entryKey = secondaryKey a.key names h) : Agree a h := by
  intro n hn hcov
  have hfirst := ha.first n hn hcov
  rw [StoreArgs.entryKey] at hkey
  split at hkey
  · rename_i hv
    rw [covered_of_appVary hv hfirst] at hcov
    cases hcov
  · rename_i names' hv
    have hclean := ha.clean
    rw [firstVary_of_appVary hv] at hfirst hclean
    have hkey := hkey.resolve_left (secondaryKey_ne _ _ _)
    rw [← (ha.readable n hn hcov).joined_eq, ← (hr n hn hcov).joined_eq]
    exact (secondaryKey_inj hclean hc hkey hfirst).2

end

section
variable {codec : Codec} {hasher : Hasher} {slots : Nat} {calls more : List Call} {f : Fetch}
  {key primary : Bytes} {h : HeaderMap} {now now' : Nat} {e : Entry} {variant : Bool}

theorem written_of_entry (he : f.entry hasher (after codec hasher slots calls) key now = some e) :
    ∃ a ∈ stores calls, a.Holds codec hasher e ∨ a.Indexes hasher e := by
  obtain ⟨⟨i, rfl, hocc⟩, -⟩ := Fetch.live_of_entry he
  exact each_after codec hasher slots calls i hocc

theorem stores_append (calls more : List Call) :
    stores (calls ++ more) = stores calls ++ stores more := filterMap_append

theorem holds_of_resolveEntry (he : resolveEntry hasher f (after codec hasher slots calls)
      (after codec hasher slots (calls ++ more)) primary h now now' = some (e, variant)) :
    ∃ a ∈ stores (calls ++ more), a.Holds codec hasher e := by
  obtain ⟨hnone, hfrom⟩ := resolveEntry_cases he
  have hwritten : ∃ a ∈ stores (calls ++ more), a.Holds codec hasher e ∨ a.Indexes hasher e := by
    rcases hfrom with he | ⟨_, _, _, _, he⟩
    · obtain ⟨a, ha, hw⟩ := written_of_entry he
      exact ⟨a, stores_append calls more ▸ mem_append_left _ ha, hw⟩
    · exact written_of_entry he
  obtain ⟨a, ha, hholds | hindex⟩ := hwritten
  exacts [⟨a, ha, hholds⟩, absurd hnone hindex.indexNames_ne]

end

/-- **Variants do not mix.** In every run whose stores are all told by their keys, what a lookup
answers is the response of a store of the run, whatever happens between its two fetches. When that
was stored under the primary key of the lookup, the values of the lookup can be read, and none of
its keys has the hash of the stored key without being it, then the two requests agree on what the
response varies on. -/
theorem vary_isolation (codec : Codec) (hasher : Hasher) (slots : Nat) (calls more : List Call)
    (htold : ∀ a ∈ stores (calls ++ more), Told a) (f : Fetch) (primary : Bytes) (h : HeaderMap)
    (now now' : Nat) (e : Entry) (variant : Bool)
    (he : resolveEntry hasher f (after codec hasher slots calls)
      (after codec hasher slots (calls ++ more)) primary h now now' = some (e, variant)) :
    (∃ a ∈ stores (calls ++ more), a.Holds codec hasher e) ∧
      ∀ a ∈ stores (calls ++ more), a.Holds codec hasher e → a.key = primary →
        (∀ n ∈ namedHeaders a.resp.headers, covered a.varyUa n = false → Readable h n) →
        (∀ k ∈ keysTried hasher f (after codec hasher slots calls) primary h now,
          hashBytes hasher k = hashBytes hasher a.entryKey → k = a.entryKey) → Agree a h := by
  refine ⟨holds_of_resolveEntry he, ?_⟩
  rintro a ha ⟨d, tag, stored, -, rfl⟩ rfl hr hclash
  obtain ⟨-, hfirst | ⟨e₀, names, hfirst, hn, hsecond⟩⟩ := resolveEntry_cases he
  · have hkey := hclash a.key (.head _) (Fetch.live_of_entry hfirst).2.symm
    have hclean : Clean [] := by simp [Clean]
    exact StoreArgs.agree_of_key (htold a ha) hclean hr (.inl hkey.symm)
  · have hclean : Clean names := by
      obtain ⟨b, hb, hholds | hindex⟩ := written_of_entry hfirst
      · rw [hholds.indexNames_eq] at hn
        cases hn
      · exact hindex.clean (htold b (stores_append calls more ▸ mem_append_left _ hb)).clean hn
    have hmem : secondaryKey a.key names h ∈
        keysTried hasher f (after codec hasher slots calls) a.key h now := by
      simp [keysTried, hfirst, hn]
    have hkey := hclash _ hmem (Fetch.live_of_entry hsecond).2.symm
    exact StoreArgs.agree_of_key (htold a ha) hclean hr (.inr hkey.symm)

/-- A `GET` of `/p?q=1` by a tenant, in a language. -/
def tenantGet (tenant language : String)
    (h : (ofString tenant).all admitted = true ∧ (ofString language).all admitted = true) :
    Request :=
  { getP (ofString "q=1") (by decide) with
    headers :=
      [⟨ofString "accept-language", ofString language, by decide, h.2⟩,
        ⟨ofString "x-tenant", ofString tenant, by decide, h.1⟩] }

def siteApp : Ns.App := ⟨replicate 16 99, by decide, by decide⟩

/-- A page for that request, with the given `Vary` lines. -/
def tenantPage (vary : List Bytes) (r : Request) : StoreArgs :=
  { key := responseCacheKey plainConfig r
    resp :=
      { status := 200
        headers := (ofString "askr-cache", ofString "60") :: vary.map fun v => (ofString "Vary", v)
        body := ofString "page" }
    acceptEncoding := [], varyUa := false, rule := none, app := siteApp
    requestHeaders := r.headers }

/-- `maybe_store` of that page. -/
def tenantStore (vary : List Bytes) (r : Request) : List Call :=
  [.index (tenantPage vary r) 0, .entry (tenantPage vary r) 0]

theorem mem_tenantStore {vary : List Bytes} {r : Request} {a : StoreArgs}
    (ha : a ∈ stores (tenantStore vary r ++ [])) : a = tenantPage vary r := by
  simpa [stores, tenantStore, Call.stored] using ha

/-- Tenant `b` is given the page that was stored for `b`, in any language. -/
theorem vary_isolation_one_line :
    Agree (tenantPage [ofString "X-Tenant"] (tenantGet "b" "en" (by decide)))
      (tenantGet "b" "de" (by decide)).headers := by
  have hserved : (resolveEntry Ns.bytesHash .get
      (after plainConfig.codec Ns.bytesHash 16
        (tenantStore [ofString "X-Tenant"] (tenantGet "b" "en" (by decide))))
      (after plainConfig.codec Ns.bytesHash 16
        (tenantStore [ofString "X-Tenant"] (tenantGet "b" "en" (by decide)) ++ []))
      (responseCacheKey plainConfig (tenantGet "b" "de" (by decide)))
      (tenantGet "b" "de" (by decide)).headers 0 0).isSome = true := by decide +kernel
  obtain ⟨⟨e, variant⟩, he⟩ := isSome_iff_exists.1 hserved
  obtain ⟨⟨a, ha, hholds⟩, hagree⟩ := vary_isolation plainConfig.codec Ns.bytesHash 16 _ []
    (by
      intro a ha
      rw [mem_tenantStore ha]
      exact ⟨by decide +kernel, by decide +kernel, by decide +kernel⟩)
    .get _ _ 0 0 e variant he
  obtain rfl := mem_tenantStore ha
  exact hagree _ ha hholds rfl (by decide +kernel) (by decide +kernel)

/-- A lookup is given a response only if the two requests agree on what the response varies on. -/
def VaryIsolation (hasher : Hasher) : Prop :=
  ∀ (cfg : Policy.Config) (slots : Nat) (calls more : List Call) (r : Request) (f : Fetch)
    (now now' : Nat) (e : Entry) (variant : Bool),
    resolveEntry hasher f (after cfg.codec hasher slots calls)
      (after cfg.codec hasher slots (calls ++ more)) (responseCacheKey cfg r) r.headers now now' =
        some (e, variant) →
    ∀ a ∈ stores (calls ++ more), a.Holds cfg.codec hasher e → a.key = responseCacheKey cfg r →
      Agree a r.headers

/-- The page of tenant `a` varies on two lines. Tenant `b` is given it. -/
theorem variants_mix : ¬ VaryIsolation Ns.bytesHash := by
  intro hclaim
  have hserved : (resolveEntry Ns.bytesHash .get
      (after plainConfig.codec Ns.bytesHash 16
        (tenantStore [ofString "Accept-Language", ofString "X-Tenant"]
          (tenantGet "a" "en" (by decide))))
      (after plainConfig.codec Ns.bytesHash 16
        (tenantStore [ofString "Accept-Language", ofString "X-Tenant"]
          (tenantGet "a" "en" (by decide)) ++ []))
      (responseCacheKey plainConfig (tenantGet "b" "en" (by decide)))
      (tenantGet "b" "en" (by decide)).headers 0 0).isSome = true := by decide +kernel
  obtain ⟨⟨e, variant⟩, he⟩ := isSome_iff_exists.1 hserved
  obtain ⟨a, ha, hholds⟩ := holds_of_resolveEntry he
  obtain rfl := mem_tenantStore ha
  exact absurd (hclaim plainConfig 16 _ _ _ .get 0 0 e variant he _ ha hholds rfl)
    (by decide)

end Askr.Policy
