import Askr.Rcache.Run
import Mathlib.Data.Set.Function

/-!
# Whose response is served

A live slot was written by a store of the run (`each_runs`). But what a lookup compares while it
probes is the hash of the key and never the key, so the response it serves was stored under a key of
the same hash. For a set of keys in use that is the key itself, in every run, exactly when the hash
tells the keys of the set apart (`own_key_iff`); no hash does so for all keys.
-/

namespace Askr.Rcache

open Askr.Ns List Option

/-! ## What every live slot satisfies -/

/-- Every live slot satisfies `P`. -/
def Each (P : Entry → Prop) (c : Cache) : Prop := ∀ i, (c.entry i).state = .occupied → P (c.entry i)

section
variable {P : Entry → Prop} {hasher : Hasher} {c c' : Cache}

theorem each_init (slots : Nat) : Each P (.init slots) := fun i hocc => by
  simp [Cache.init, Entry.zeroed] at hocc

theorem Each.keeps (hc : Each P c) (hk : ∀ i, (c.entry i).Keeps (c'.entry i)) : Each P c' := by
  intro i hocc
  have heq := hk i hocc
  rw [heq] at hocc ⊢
  exact hc i hocc

theorem Each.store (hc : Each P c) {key : Bytes} {page : Page} {now : Nat}
    (hP : P (writeEntry hasher c.tag key page now)) :
    Each P (Rcache.store hasher c key page now).1 := by
  intro i hocc
  rw [Rcache.store] at hocc ⊢
  split
  · rename_i hfit
    rw [if_pos hfit] at hocc
    by_cases hi : i = storeSlot hasher c key
    · simpa [hi] using hP
    · simp only [Cache.set_entry, Function.update_of_ne hi] at hocc ⊢
      exact hc i hocc
  · rename_i hfit
    rw [if_neg hfit] at hocc
    exact hc i hocc

/-- **One operation** keeps `P`, if what it stores satisfies it. -/
theorem Each.step (hc : Each P c) {op : Op}
    (hP : ∀ key page now tag, op = .store key page now → P (writeEntry hasher tag key page now)) :
    Each P (Rcache.step hasher c op) := by
  cases op with
  | store key page now => exact hc.store (hP key page now _ rfl)
  | _ => exact hc.keeps fun i => step_keeps hasher c _ (by simp [Op.writes])

end

/-- The entry was written by a store of the run. -/
def WrittenBy (hasher : Hasher) (ops : List Op) (e : Entry) : Prop :=
  ∃ key page now tag, .store key page now ∈ ops ∧ e = writeEntry hasher tag key page now

/-- **Every live slot was written by a store of the run.** -/
theorem each_runs (hasher : Hasher) (slots : Nat) (ops : List Op) :
    Each (WrittenBy hasher ops) (Run.runs (step hasher) (.init slots) ops) := by
  refine (Run.along_of_mem (D := (· ∈ ops)) _ fun op hop => hop).inv (fun c op hop hc => ?_)
    (each_init slots)
  refine hc.step fun key page now tag heq => ?_
  subst heq
  exact ⟨key, page, now, tag, hop, rfl⟩

/-! ## Whose key -/

/-- The response is the one that the page was stored for. -/
def Cached.Of (x : Cached) (page : Page) : Prop :=
  x.status = page.status ∧ x.headers = parseHdrBlob (hdrBlob page.headers) ∧ x.body = page.body

/-- The operation stores under keys of the set only. -/
def Op.storesIn (K : Set Bytes) (op : Op) : Prop :=
  ∀ key page now, op = .store key page now → key ∈ K

/-- **A response is only served for its own key**, where the keys in use are those of `K`. -/
def OwnKey (hasher : Hasher) (K : Set Bytes) : Prop :=
  ∀ (slots : Nat) (ops : List Op) (k : Bytes) (now : Nat) (x : Cached),
    (∀ op ∈ ops, op.storesIn K) → k ∈ K →
    (peek hasher (Run.runs (step hasher) (.init slots) ops) k now).2 = some x →
      ∃ page now', .store k page now' ∈ ops ∧ x.Of page

theorem keyHash_of_peek {hasher : Hasher} {c : Cache} {k : Bytes} {now : Nat} {x : Cached}
    (h : (peek hasher c k now).2 = some x) :
    ∃ i, (c.entry i).state = .occupied ∧ (c.entry i).keyHash = hashBytes hasher k ∧
      x = (c.entry i).cached now := by
  rw [peek] at h
  obtain ⟨i, hi, rfl⟩ := map_eq_some_iff.1 h
  obtain ⟨hf, hocc, -⟩ := peekIn_hit_iff.1 hi
  have hend := find?_some hf
  rw [ends, hocc] at hend
  exact ⟨i, hocc, by simpa using hend, rfl⟩

def plainPage : Page :=
  { status := 200, headers := [], body := Bytes.ofString "page", ttl := 0, swr := 0, sie := 0
    tags := [], app := none }

theorem peek_store_init (hasher : Hasher) {k k' : Bytes}
    (h : hashBytes hasher k' = hashBytes hasher k) :
    (peek hasher (store hasher (.init 16) k plainPage 0).1 k' 0).2.isSome = true := by
  obtain ⟨w, hw⟩ := window_succ 15 16 (hashBytes hasher k)
  have hprobe : (Cache.init 16).probe (hashBytes hasher k) = _ :: w := hw
  have hslot : storeSlot hasher (.init 16) k = u64Add (hashBytes hasher k) 0 % 16 := by
    rw [storeSlot, hprobe, storeIn, if_pos (.inl rfl)]
  rw [store, if_pos (by decide : plainPage.fits = true), peek, peekSlot, h, Cache.probe_set, hprobe,
    hslot, isSome_map]
  have hhit : (peekIn ((Cache.init 16).set (u64Add (hashBytes hasher k) 0 % 16)
      (writeEntry hasher (Cache.init 16).tag k plainPage 0)) (hashBytes hasher k) 0
      (u64Add (hashBytes hasher k) 0 % 16 :: w)).2 = some (u64Add (hashBytes hasher k) 0 % 16) := by
    refine peekIn_hit_iff.2 ⟨?_, ?_, ?_, ?_⟩
    · rw [find?_cons_of_pos]
      simp [ends, writeEntry]
    all_goals
      simp [writeEntry, Entry.expired, Entry.retain, Entry.tagInvalid, plainPage, Page.expires]
  rw [hhit]
  rfl

/-- **When a response is only served for its own key.** In every run that uses keys of `K`, exactly
when no two of them have one hash. -/
theorem own_key_iff (hasher : Hasher) (K : Set Bytes) :
    OwnKey hasher K ↔ Set.InjOn (hashBytes hasher) K := by
  constructor
  · intro h k hk k' hk' heq
    have hserved := peek_store_init hasher heq.symm
    obtain ⟨x, hx⟩ := isSome_iff_exists.1 hserved
    obtain ⟨page, now', hmem, -⟩ := h 16 [.store k plainPage 0] k' 0 x
      (fun op hop key page now he => by
        rw [mem_singleton.1 hop] at he
        cases he
        exact hk) hk' hx
    have := mem_singleton.1 hmem
    cases this
    rfl
  · intro hinj slots ops k now x hops hk hx
    obtain ⟨i, hocc, hhash, rfl⟩ := keyHash_of_peek hx
    obtain ⟨key, page, now', tag, hmem, he⟩ := each_runs hasher slots ops i hocc
    rw [he] at hhash ⊢
    have hkey : key = k := hinj (hops _ hmem key page now' rfl) hk hhash
    exact ⟨page, now', hkey ▸ hmem, rfl, rfl, rfl⟩

/-- A hash that tells no two keys apart. -/
def constHash : Hasher := fun _ => 1

/-- **The page of another key is served.** The keys `a` and `b` have one hash; the page stored under
`a` is served for `b`. -/
theorem other_key_served : ¬ ∀ hasher, OwnKey hasher Set.univ := by
  intro h
  have hserved : (peek constHash (Run.runs (step constHash) (.init 16)
      [.store (Bytes.ofString "a") plainPage 0]) (Bytes.ofString "b") 0).2.isSome = true := by
    decide
  obtain ⟨x, hx⟩ := isSome_iff_exists.1 hserved
  obtain ⟨page, now', hmem, -⟩ := h constHash 16 _ _ 0 x (fun _ _ _ _ _ _ => trivial) trivial hx
  have heq := mem_singleton.1 hmem
  injection heq with hkey
  exact absurd hkey (by decide)

end Askr.Rcache
