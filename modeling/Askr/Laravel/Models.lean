import Askr.Policy.Store

/-!
# The tags of a page and the models it read

`ModelDependencies` of the Laravel package records which models a request read and names tags for
them; `CacheResponse` puts the tags into the `Askr-Cache` header, and the server decodes the header
and reads them back with `parse_cache_directive`, taken apart at every separator
(`parseCacheDirective_header`). When a model changes, `forget` forgets the tag of the model and the
tag of its table.

A page that is tagged by instances is invalidated by a model with a key whose tag is read as it is
(`Clean`), and one that is tagged by tables by a model whose table is; any other model has to find
its tag or its table among the words of another's (`invalidable_iff`). So a page outlives a model
without a key (`page_outlives_model`). A PHP array with string keys is the list of its keys in the
order they were set.
-/

namespace Askr.Laravel

open Bytes Policy List

/-! ## `ModelDependencies` -/

/-- A PHP `int`. -/
structure PhpInt where
  val : Int
  inI64 : InI64 val

/-- `Model::getKey`: a key is an integer, a string, or nothing that names the model. -/
inductive Key where
  | int (n : PhpInt)
  | str (s : Bytes)
  | other

def Key.text : Key → Option Bytes
  | .int n => some (intBytes n.val)
  | .str s => some s
  | .other => none

/-- A model, as far as its tags go. -/
structure Model where
  table : Bytes
  key : Key

/-- The tag of a model's class: its table. -/
def Model.classTag (m : Model) : Bytes := m.table

def Model.instanceTag (m : Model) : Option Bytes :=
  m.key.text.map fun k => m.classTag ++ 58 :: k

/-- `$array[$key] = true`. -/
def setKey (keys : List Bytes) (k : Bytes) : List Bytes := if k ∈ keys then keys else keys ++ [k]

/-- `ModelDependencies`. -/
structure Deps where
  instances : List Bytes
  classes : List Bytes
  collecting : Bool

def MAX_TAGS : Nat := 8

def Deps.start : Deps := { instances := [], classes := [], collecting := true }

def Deps.stop (d : Deps) : Deps := { d with collecting := false }

def Deps.record (d : Deps) (m : Model) : Deps :=
  if d.collecting then
    { d with
      classes := setKey d.classes m.classTag
      instances := match m.instanceTag with
        | some t => setKey d.instances t
        | none => d.instances }
  else d

def Deps.tags (d : Deps) : List Bytes :=
  if d.instances = [] ∧ d.classes = [] then []
  else if d.instances.length ≤ MAX_TAGS then d.instances
  else if d.classes.length ≤ MAX_TAGS then d.classes
  else []

def Deps.overflowed (d : Deps) : Bool := d.classes ≠ [] && d.classes.length > MAX_TAGS

/-- `forget`: the tags that are forgotten when the model changes. -/
def Model.forget (m : Model) : List Bytes := m.instanceTag.toList ++ [m.classTag]

/-- What a request that read these models leaves. -/
def recorded (ms : List Model) : Deps := (ms.foldl Deps.record .start).stop

/-! ## `CacheResponse` -/

/-- The arguments of the middleware, as integers. -/
structure Lifetimes where
  ttl : PhpInt
  swr : PhpInt
  staleIfError : PhpInt

/-- What is in front of the tags. -/
def Lifetimes.text (l : Lifetimes) : Bytes :=
  intBytes (max 0 l.ttl.val) ++
    ((if l.swr.val > 0 then ofString ", swr=" ++ intBytes l.swr.val else []) ++
      if l.staleIfError.val > 0 then ofString ", stale-if-error=" ++ intBytes l.staleIfError.val
      else [])

/-- `handle`: the `Askr-Cache` header of the response, if it gets one. -/
def askrCache (shouldCache : Bool) (d : Deps) (l : Lifetimes) : Option Bytes :=
  if !shouldCache then none
  else if d.overflowed then none
  else
    some (l.text ++ if d.tags = [] then [] else ofString ", tags=" ++ [44].intercalate d.tags)

/-! ## What was recorded -/

theorem mem_setKey {keys : List Bytes} {k t : Bytes} : t ∈ setKey keys k ↔ t ∈ keys ∨ t = k := by
  rw [setKey]
  split
  · rename_i hk
    exact ⟨.inl, fun h => h.elim id fun h => h ▸ hk⟩
  · simp

theorem record_foldl (ms : List Model) (d : Deps) (hd : d.collecting = true) :
    (∀ t, t ∈ (ms.foldl Deps.record d).classes ↔ t ∈ d.classes ∨ ∃ m ∈ ms, m.classTag = t) ∧
    ∀ t, t ∈ (ms.foldl Deps.record d).instances ↔
      t ∈ d.instances ∨ ∃ m ∈ ms, m.instanceTag = some t := by
  induction ms generalizing d with
  | nil => simp
  | cons m ms ih =>
    have hcoll : (d.record m).collecting = true := by rw [Deps.record, if_pos hd]; exact hd
    obtain ⟨hc, hi⟩ := ih (d.record m) hcoll
    refine ⟨fun t => ?_, fun t => ?_⟩
    · rw [foldl_cons, hc, Deps.record, if_pos hd, mem_setKey, exists_mem_cons_iff,
        or_assoc]
      simp only [eq_comm]
    · rw [foldl_cons, hi, Deps.record, if_pos hd, exists_mem_cons_iff, ← or_assoc]
      cases hm : m.instanceTag with
      | none => simp
      | some u => simp only [mem_setKey, Option.some.injEq, eq_comm]

theorem mem_classes {ms : List Model} {t : Bytes} :
    t ∈ (recorded ms).classes ↔ ∃ m ∈ ms, m.classTag = t := by
  have h := (record_foldl ms .start rfl).1 t
  simpa [recorded, Deps.stop, Deps.start] using h

theorem mem_instances {ms : List Model} {t : Bytes} :
    t ∈ (recorded ms).instances ↔ ∃ m ∈ ms, m.instanceTag = some t := by
  have h := (record_foldl ms .start rfl).2 t
  simpa [recorded, Deps.stop, Deps.start] using h

/-! ## What the server reads -/

/-- The tags that the server makes of a text: it is cut at every separator. -/
def pieces (t : Bytes) : List Bytes := ((t.splitOnP isSeparator).map trim).filter (· ≠ [])

theorem pieces_intercalate (tags : List Bytes) :
    pieces ([44].intercalate tags) = tags.flatMap pieces := by
  induction tags with
  | nil => decide
  | cons t tags ih =>
    cases tags with
    | nil => simp [intercalate]
    | cons u tags =>
      have hjoin : [44].intercalate (t :: u :: tags) = t ++ 44 :: [44].intercalate (u :: tags) := by
        simp [intercalate]
      rw [hjoin, pieces, splitOnP_append_cons _ _ (by decide), map_append,
        filter_append, flatMap_cons, ← ih]
      rfl

theorem cut_append {x y g : UInt8} {zs front : Bytes} (rest : Bytes) (hg : g ∉ front) (hx : g ≠ x)
    (hy : g ≠ y) :
    cut (x :: y :: g :: zs) (front ++ (x :: y :: g :: zs ++ rest)) = some (front, rest) := by
  induction front with
  | nil =>
    rw [nil_append, cons_append, cut, if_pos (by simp)]
    simp
  | cons b front ih =>
    have hno : ¬ (x :: y :: g :: zs).isPrefixOf (b :: (front ++ (x :: y :: g :: zs ++ rest))) := by
      rw [List.isPrefixOf_iff_prefix]
      rintro ⟨t, ht⟩
      rcases front with _ | ⟨c, _ | ⟨e, front⟩⟩
      · simp [hy] at ht
      · simp [hx] at ht
      · simp only [cons_append, List.cons.injEq] at ht
        exact hg (by simp [ht.2.2.1])
    rw [cons_append, cut, if_neg hno, ih fun h => hg (.tail _ h)]
    rfl

theorem cut_eq_none {needle s : Bytes} {g : UInt8} (hn : g ∈ needle) (hg : g ∉ s) :
    cut needle s = none := by
  induction s with
  | nil => rw [cut, if_neg (ne_nil_of_mem hn)]
  | cons b r ih =>
    have hno : ¬ needle.isPrefixOf (b :: r) := by
      rw [List.isPrefixOf_iff_prefix]
      exact fun hp => hg (hp.subset hn)
    rw [cut, if_neg hno, ih fun h => hg (.tail _ h)]
    rfl

theorem isSeparator_of_mem_natBytes {n : Nat} {b : UInt8} (hb : b ∈ natBytes n) :
    isSeparator b = false := by
  have hd := isDigit_of_mem_natBytes hb
  simp only [isDigit, Bool.and_eq_true, decide_eq_true_eq, UInt8.le_iff_toNat_le,
    UInt8.reduceToNat] at hd
  simp only [isSeparator, Bool.or_eq_false_iff, beq_eq_false_iff_ne, ne_eq, ← UInt8.toNat_inj,
    UInt8.reduceToNat]
  omega

theorem parseU64_trim_natBytes {n : Nat} (hn : n < U64) :
    parseU64 (trim (natBytes n)) = some n := by
  have htrim : trim (natBytes n) = natBytes n := trim_intBytes (.ofNat n)
  have hplus : ∀ r, natBytes n ≠ 43 :: r := fun r h =>
    absurd (isDigit_of_mem_natBytes (h ▸ .head _ : (43 : UInt8) ∈ natBytes n)) (by decide)
  rw [htrim, parseU64, parseDigits_natBytes, Option.filter_some, if_pos (by simpa using hn)]
  exact hplus

theorem findSome?_ttl {n : Nat} (hn : n < U64) {r : Bytes} (hr : r = [] ∨ ∃ r', r = 44 :: r') :
    ((natBytes n ++ r).splitOnP isSeparator).findSome? (fun t => parseU64 (trim t)) = some n := by
  have hdigits : ∀ b ∈ natBytes n, isSeparator b = false := fun b =>
    isSeparator_of_mem_natBytes
  have hsplit : ∃ l, (natBytes n ++ r).splitOnP isSeparator = natBytes n :: l := by
    rcases hr with rfl | ⟨r', rfl⟩
    · exact ⟨[], by rw [append_nil, splitOnP_eq_singleton hdigits]⟩
    · exact ⟨r'.splitOnP isSeparator, by
        rw [splitOnP_append_cons _ _ (by decide), splitOnP_eq_singleton hdigits]
        rfl⟩
  obtain ⟨l, hl⟩ := hsplit
  rw [hl, findSome?_cons, parseU64_trim_natBytes hn]

theorem Lifetimes.text_eq (l : Lifetimes) : (max 0 l.ttl.val).toNat < U64 ∧ ∃ r,
    l.text = natBytes (max 0 l.ttl.val).toNat ++ r ∧ (r = [] ∨ ∃ r', r = 44 :: r') := by
  obtain ⟨n, hn⟩ := Int.eq_ofNat_of_zero_le (Int.le_max_left 0 l.ttl.val)
  have hlt : n < U64 := by
    have hmax := l.ttl.inI64.2
    rw [U64]
    omega
  have hswr : ofString ", swr=" = 44 :: ofString " swr=" := by decide
  have hsie : ofString ", stale-if-error=" = 44 :: ofString " stale-if-error=" := by decide
  rw [hn]
  refine ⟨hlt, _, by rw [Lifetimes.text, hn]; rfl, ?_⟩
  rw [hswr, hsie]
  split
  · exact .inr ⟨_, rfl⟩
  · split
    · exact .inr ⟨_, rfl⟩
    · exact .inl rfl

theorem Lifetimes.of_mem_text {l : Lifetimes} {b : UInt8} (h : b ∈ l.text) :
    (b = 45 ∨ isDigit b) ∨ b ∈ ofString ", swr=stale-if-error=" := by
  have hnamed : ∀ {name : Bytes} {n : Int}, name ⊆ ofString ", swr=stale-if-error=" →
      b ∈ (if n > 0 then name ++ intBytes n else []) →
        (b = 45 ∨ isDigit b) ∨ b ∈ ofString ", swr=stale-if-error=" := by
    intro name n hname h
    split at h
    · exact (mem_append.1 h).elim (fun h => .inr (hname h)) fun h => .inl (of_mem_intBytes h)
    · cases h
  rw [Lifetimes.text, mem_append, mem_append] at h
  rcases h with h | h | h
  exacts [.inl (of_mem_intBytes h), hnamed (by decide) h, hnamed (by decide) h]

theorem Lifetimes.g_notMem_text (l : Lifetimes) : 103 ∉ l.text := fun h =>
  absurd (of_mem_text h) (by decide)

theorem Lifetimes.text_ascii (l : Lifetimes) : ∀ b ∈ l.text, b < 0x80 := by
  intro b hb
  have hnames : ∀ b ∈ ofString ", swr=stale-if-error=", b < 0x80 := by decide +kernel
  rcases of_mem_text hb with (rfl | h) | h
  · decide
  · simp only [isDigit, Bool.and_eq_true, decide_eq_true_eq] at h
    exact UInt8.lt_of_le_of_lt h.2 (by decide)
  · exact hnames b h

/-- **What the server reads** of the header: the lifetime, the other two by a search of the whole
text, and the tags, each taken apart at its separators. -/
theorem parseCacheDirective_header (tags : List Bytes) (l : Lifetimes) :
    let v := l.text ++ if tags = [] then [] else ofString ", tags=" ++ [44].intercalate tags
    parseCacheDirective v = some
      { ttl := (max 0 l.ttl.val).toNat
        swr := directiveSecs v (ofString "swr=")
        sie := max (directiveSecs v (ofString "stale-if-error="))
          (directiveSecs v (ofString "sie="))
        tags := tags.flatMap pieces } := by
  obtain ⟨hn, r, htext, hr⟩ := l.text_eq
  have hneedle : ofString "tags=" = [116, 97, 103, 115, 61] := by decide
  by_cases htags : tags = []
  · simp only [if_pos htags, append_nil]
    rw [htags, flatMap_nil, parseCacheDirective,
      cut_eq_none (by decide : (103 : UInt8) ∈ ofString "tags=") l.g_notMem_text, Option.getD_none]
    have hnone : pieces [] = [] := by decide
    rw [pieces] at hnone
    simp only [hnone]
    rw [htext, findSome?_ttl hn hr]
    rfl
  · have hcomma : ofString ", tags=" = [44, 32] ++ ofString "tags=" := by decide
    have hcut : cut (ofString "tags=") (l.text ++ (ofString ", tags=" ++ [44].intercalate tags)) =
        some (l.text ++ [44, 32], [44].intercalate tags) := by
      have hg : (103 : UInt8) ∉ l.text ++ [44, 32] := by
        rw [mem_append, not_or]
        exact ⟨l.g_notMem_text, by decide⟩
      rw [hcomma, hneedle, append_assoc, ← append_assoc l.text]
      exact cut_append _ hg (by decide) (by decide)
    have hhead : ((l.text ++ [44, 32]).splitOnP isSeparator).findSome?
        (fun t => parseU64 (trim t)) = some (max 0 l.ttl.val).toNat := by
      rw [htext, append_assoc]
      refine findSome?_ttl hn (.inr ?_)
      rcases hr with rfl | ⟨r', rfl⟩
      exacts [⟨_, rfl⟩, ⟨_, rfl⟩]
    have hpieces := pieces_intercalate tags
    rw [pieces] at hpieces
    simp only [if_neg htags]
    rw [parseCacheDirective, hcut, Option.getD_some]
    simp only [hpieces, hhead]
    rfl

/-! ## What is left of a tag -/

/-- The tags that the server makes of what PHP wrote: `parse_headers` decodes it first. -/
def words (t : Bytes) : List Bytes := pieces (fromUtf8Lossy t)

/-- The text is read as one tag, itself. -/
structure Clean (t : Bytes) : Prop where
  ne_nil : t ≠ []
  joined : ∀ b ∈ t, isSeparator b = false
  utf8 : fromUtf8Lossy t = t
  trimmed : trim t = t

theorem words_of_clean {t : Bytes} (h : Clean t) : words t = [t] := by
  rw [words, h.utf8, pieces, splitOnP_eq_singleton h.joined]
  simp [h.trimmed, h.ne_nil]

theorem isSeparator_lt {c : UInt8} (hc : isSeparator c = true) : c < 0x80 := by
  simp only [isSeparator, Bool.or_eq_true, beq_iff_eq] at hc
  obtain (rfl | rfl) | rfl := hc <;> decide

/-- The pieces of a decoded text are decoded. -/
theorem fromUtf8Lossy_of_mem_splitOnP {x p : Bytes} (hx : fromUtf8Lossy x = x)
    (hp : p ∈ x.splitOnP isSeparator) :
    fromUtf8Lossy p = p ∧ ∀ b ∈ p, isSeparator b = false := by
  induction hn : x.length using Nat.strong_induction_on generalizing x with
  | _ n ih =>
    by_cases hsep : ∃ c ∈ x, isSeparator c = true
    · obtain ⟨c, hmem, hc⟩ := hsep
      obtain ⟨a, s, rfl, hno⟩ := eq_append_cons_of_mem hmem
      rw [length_append, length_cons] at hn
      rw [fromUtf8Lossy_append_ascii (isSeparator_lt hc)] at hx
      obtain ⟨ha, hs⟩ := append_cons_inj
        (fun h => hno (mem_of_mem_fromUtf8Lossy (isSeparator_lt hc) h)) hno hx
      rw [splitOnP_append_cons _ _ hc, mem_append] at hp
      rcases hp with hp | hp
      exacts [ih _ (by omega) ha hp rfl, ih _ (by omega) hs hp rfl]
    · have hall : ∀ b ∈ x, isSeparator b = false := by simpa using hsep
      rw [splitOnP_eq_singleton hall, mem_singleton] at hp
      exact hp ▸ ⟨hx, hall⟩

/-- The server's tags are read as they are when they are written again. -/
theorem clean_of_mem_words {t p : Bytes} (h : p ∈ words t) : Clean p := by
  obtain ⟨hp, hne⟩ := mem_filter.1 h
  obtain ⟨q, hq, rfl⟩ := mem_map.1 hp
  obtain ⟨hutf8, hjoined⟩ := fromUtf8Lossy_of_mem_splitOnP (fromUtf8Lossy_fromUtf8Lossy t) hq
  exact ⟨by simpa using hne, fun b hb => hjoined b (mem_of_mem_trim hb),
    fromUtf8Lossy_trim hutf8, trim_trim q⟩

theorem fromUtf8Lossy_intercalate (tags : List Bytes) :
    fromUtf8Lossy ([44].intercalate tags) = [44].intercalate (tags.map fromUtf8Lossy) := by
  induction tags with
  | nil => rfl
  | cons t tags ih =>
    cases tags with
    | nil => simp [intercalate]
    | cons u tags =>
      have hjoin : ∀ (t u : Bytes) (tags : List Bytes),
          [44].intercalate (t :: u :: tags) = t ++ 44 :: [44].intercalate (u :: tags) := by
        simp [intercalate]
      rw [hjoin, fromUtf8Lossy_append_ascii (by decide), ih]
      simp only [map_cons, hjoin]

/-- **What the server reads of the tags**: the words of each. -/
theorem tags_parseCacheDirective (tags : List Bytes) (l : Lifetimes) :
    ∃ dir, parseCacheDirective (fromUtf8Lossy (l.text ++
        if tags = [] then [] else ofString ", tags=" ++ [44].intercalate tags)) = some dir ∧
      dir.tags = tags.flatMap words := by
  have hdecode : fromUtf8Lossy (l.text ++
      if tags = [] then [] else ofString ", tags=" ++ [44].intercalate tags) =
      l.text ++ if tags.map fromUtf8Lossy = [] then []
        else ofString ", tags=" ++ [44].intercalate (tags.map fromUtf8Lossy) := by
    rw [fromUtf8Lossy_append l.text_ascii]
    simp only [map_eq_nil_iff]
    split
    · rfl
    · rw [fromUtf8Lossy_append (by decide +kernel), fromUtf8Lossy_intercalate]
  refine ⟨_, hdecode ▸ parseCacheDirective_header _ l, ?_⟩
  exact flatMap_map ..

/-! ## When every model can invalidate the page -/

/-- **Every model the page read can invalidate it**: if the response gets a directive, then a tag
that the server reads from it is forgotten with each of the models. The server decodes the header
(`parse_headers`); that it trims it is left out, as `parse_cache_directive` trims every tag. -/
def Invalidable (shouldCache : Bool) (ms : List Model) (l : Lifetimes) : Prop :=
  ∀ v, askrCache shouldCache (recorded ms) l = some v → ∀ m ∈ ms,
    ∃ dir, parseCacheDirective (fromUtf8Lossy v) = some dir ∧ ∃ t ∈ dir.tags, t ∈ m.forget

/-- The model invalidates a page that is tagged by instances: its tag is read as it is, or its table
is a word of another tag. -/
def Model.ByInstance (ms : List Model) (m : Model) : Prop :=
  (∃ t, m.instanceTag = some t ∧ Clean t) ∨
    ∃ m' ∈ ms, ∃ t, m'.instanceTag = some t ∧ m.table ∈ words t

/-- The model invalidates a page that is tagged by tables: its table is read as it is, or its tag is
a word of another table. -/
def Model.ByClass (ms : List Model) (m : Model) : Prop :=
  Clean m.table ∨ ∃ t, m.instanceTag = some t ∧ ∃ m' ∈ ms, t ∈ words m'.table

theorem Model.mem_forget {m : Model} {t : Bytes} :
    t ∈ m.forget ↔ m.instanceTag = some t ∨ t = m.table := by
  simp [forget, classTag]

theorem byInstance_iff {ms : List Model} {m : Model} (hm : m ∈ ms) :
    (∃ p ∈ (recorded ms).instances.flatMap words, p ∈ m.forget) ↔ m.ByInstance ms := by
  simp only [mem_flatMap, mem_instances, Model.mem_forget]
  constructor
  · rintro ⟨p, ⟨t, ⟨m', hm', ht⟩, hp⟩, hself | rfl⟩
    exacts [.inl ⟨p, hself, clean_of_mem_words hp⟩, .inr ⟨m', hm', t, ht, hp⟩]
  · rintro (⟨t, ht, hclean⟩ | ⟨m', hm', t, ht, hp⟩)
    · exact ⟨t, ⟨t, ⟨m, hm, ht⟩, by simp [words_of_clean hclean]⟩, .inl ht⟩
    · exact ⟨_, ⟨t, ⟨m', hm', ht⟩, hp⟩, .inr rfl⟩

theorem byClass_iff {ms : List Model} {m : Model} (hm : m ∈ ms) :
    (∃ p ∈ (recorded ms).classes.flatMap words, p ∈ m.forget) ↔ m.ByClass ms := by
  simp only [mem_flatMap, mem_classes, Model.mem_forget]
  constructor
  · rintro ⟨p, ⟨t, ⟨m', hm', rfl⟩, hp⟩, hself | rfl⟩
    exacts [.inr ⟨p, hself, m', hm', hp⟩, .inl (clean_of_mem_words hp)]
  · rintro (hclean | ⟨t, ht, m', hm', hp⟩)
    · exact ⟨_, ⟨_, ⟨m, hm, rfl⟩, by simp [Model.classTag, words_of_clean hclean]⟩, .inr rfl⟩
    · exact ⟨t, ⟨_, ⟨m', hm', rfl⟩, hp⟩, .inl ht⟩

/-- The tags of a page: the instances while they are few, else the tables. -/
theorem tags_eq {ms : List Model} (h : (recorded ms).classes.length ≤ MAX_TAGS) :
    (recorded ms).tags = if (recorded ms).instances.length ≤ MAX_TAGS then (recorded ms).instances
      else (recorded ms).classes := by
  rw [Deps.tags]
  split
  · rename_i hnone
    simp [hnone]
  · rfl

/-- **When every model can invalidate the page.** Exactly when the page is not cached, or it read
models of too many tables, or each model invalidates it by the tags it has: those of the instances,
or those of the tables when too many instances were read. -/
theorem invalidable_iff (shouldCache : Bool) (ms : List Model) (l : Lifetimes) :
    Invalidable shouldCache ms l ↔
      shouldCache = false ∨ MAX_TAGS < (recorded ms).classes.length ∨
      ((recorded ms).instances.length ≤ MAX_TAGS ∧ ∀ m ∈ ms, m.ByInstance ms) ∨
      (MAX_TAGS < (recorded ms).instances.length ∧ ∀ m ∈ ms, m.ByClass ms) := by
  cases shouldCache with
  | false => simp [Invalidable, askrCache]
  | true =>
    have hover : (recorded ms).overflowed = true ↔ MAX_TAGS < (recorded ms).classes.length := by
      simp only [Deps.overflowed, Bool.and_eq_true, decide_eq_true_eq, and_iff_right_iff_imp]
      exact fun hmany => ne_nil_of_length_pos (Nat.zero_lt_of_lt hmany)
    by_cases hmany : MAX_TAGS < (recorded ms).classes.length
    · simp [Invalidable, askrCache, hover.2 hmany, hmany]
    have hfew := Bool.eq_false_iff.2 fun h => hmany (hover.1 h)
    obtain ⟨dir, hparse, htags⟩ := tags_parseCacheDirective (recorded ms).tags l
    have hiff : Invalidable true ms l ↔ ∀ m ∈ ms, ∃ t ∈ dir.tags, t ∈ m.forget := by
      simp [Invalidable, askrCache, hfew, hparse]
    rw [hiff, htags, tags_eq (Nat.not_lt.1 hmany)]
    simp only [Bool.true_eq_false, hmany, false_or]
    split
    · rename_i hle
      rw [or_iff_left fun h => Nat.not_lt.2 hle h.1, and_iff_right hle]
      exact forall₂_congr fun m hm => byInstance_iff hm
    · rename_i hgt
      rw [or_iff_right fun h => hgt h.1, and_iff_right (Nat.not_le.1 hgt)]
      exact forall₂_congr fun m hm => byClass_iff hm

/-- Every page can be invalidated by every model it read. -/
def PagesInvalidable : Prop :=
  ∀ (shouldCache : Bool) (ms : List Model) (l : Lifetimes),
    (∀ m ∈ ms, ∀ b ∈ m.table, isSeparator b = false) → Invalidable shouldCache ms l

def hour : Lifetimes :=
  { ttl := ⟨3600, by decide⟩, swr := ⟨0, by decide⟩, staleIfError := ⟨0, by decide⟩ }

/-- A post, and a row of a view that has no key. -/
def postAndTotals : List Model :=
  [⟨ofString "posts", .int ⟨3, by decide⟩⟩, ⟨ofString "totals", .other⟩]

/-- **A page outlives a model it read.** The page read the post and the row of the view. It is
tagged `posts:3` alone, and a change of the row forgets the tag `totals`. -/
theorem page_outlives_model : ¬ PagesInvalidable := by
  intro h
  have htags : (askrCache true (recorded postAndTotals) hour).bind (fun v =>
      (parseCacheDirective (fromUtf8Lossy v)).map (·.tags)) = some [ofString "posts:3"] := by
    decide +kernel
  obtain ⟨v, hv, hdir⟩ := Option.bind_eq_some_iff.1 htags
  obtain ⟨dir, hparse, t, ht, hforget⟩ :=
    h true postAndTotals hour (by decide +kernel) v hv ⟨ofString "totals", .other⟩
      (by simp [postAndTotals])
  rw [hparse, Option.map_some, Option.some.injEq] at hdir
  rw [hdir, mem_singleton] at ht
  rw [ht] at hforget
  exact absurd hforget (by decide)

end Askr.Laravel
