import Askr.Kv.Shelf
import Askr.Queue.Desk

/-!
# Applications apart

Applications share the two tables, and each should observe what it would observe if the others had
not called at all (`Isolated`). The part of an application is the shelves of its keys in the cache
and a desk in the ring: all that a call of it reads and changes, and a call of another one leaves
alone. So the runs with and without the others go along with each other (`Same`), and `isolation`
follows by unwinding.

The two runs differ in the numbers that come from the counters of the ring. An application that
presents the leases it was given does not notice; in `guess_seen` one makes up a number.
-/

namespace Askr.Isolate

open Conc Function List Run

/-! ## The two tables -/

/-- What does not change once the tables are mapped. -/
structure Config where
  kv : Kv.Config
  queue : Queue.Config

/-- A lease that an application presents: the one that its `k`-th successful pop returned, counted
from `0`, or a number. -/
inductive Lease where
  | mine (k : Nat)
  | number (n : Nat)

inductive Req where
  | kv (name : Bytes) (req : Kv.Req)
  | flush
  | push (queue payload : Bytes) (delay : Nat)
  | pop (queue : Bytes) (visibility : Nat)
  | delete (lease : Lease)
  | release (lease : Lease) (delay : Nat)

/-- A call under an application, or time goes by. -/
inductive Op where
  | call (app : Ns.App) (req : Req)
  | tick (d : Nat)

/-- What an application observes of a call. The id of a push and the lease of a pop are not in
it. -/
inductive Seen where
  | kv (r : Kv.Res)
  | flushed
  | queue (r : Queue.Answer)
deriving DecidableEq

/-- The tables, and what each application has got: the leases of its pops, and what it observed. -/
structure State where
  kv : Kv.Mem
  ring : Queue.Ring
  taken : Ns.App → List Nat
  seen : Ns.App → List Seen

def State.init (nowMs : Nat) : State :=
  { kv := .init nowMs, ring := .init nowMs, taken := fun _ => [], seen := fun _ => [] }

def Lease.resolve (taken : List Nat) : Lease → Nat
  | .mine k => (taken[k]?).getD 0
  | .number n => n

/-- The application observes something. -/
def State.note (s : State) (app : Ns.App) (x : Seen) : State :=
  { s with seen := update s.seen app (s.seen app ++ [x]) }

/-- The application has got the lease of a pop. -/
def State.take (s : State) (app : Ns.App) (r : Option Queue.Reserved) : State :=
  { s with
    taken := update s.taken app (s.taken app ++ (r.map Queue.Reserved.id).toList) }

def call (g : Config) (s : State) (app : Ns.App) : Req → State
  | .kv name req =>
    let out := (Kv.code g.kv ⟨some app, name, req⟩).run s.kv
    State.note { s with kv := out.1 } app (.kv out.2)
  | .flush =>
    let out := (Kv.flushApp g.kv app).run s.kv
    State.note { s with kv := out.1 } app .flushed
  | .push queue payload delay =>
    let out := (Queue.push g.queue (Ns.key (some app) queue) payload delay).run s.ring
    State.note { s with ring := out.1 } app (.queue (.took (out.2 ≠ 0)))
  | .pop queue visibility =>
    let out := (Queue.pop g.queue (Ns.key (some app) queue) visibility).run s.ring
    (State.take { s with ring := out.1 } app out.2).note app
      (.queue (.job (out.2.map fun r => (r.attempts, r.payload))))
  | .delete lease =>
    let out := (Queue.delete g.queue (some app) (lease.resolve (s.taken app))).run s.ring
    State.note { s with ring := out.1 } app (.queue (.flag out.2))
  | .release lease delay =>
    let out := (Queue.release g.queue (some app) (lease.resolve (s.taken app)) delay).run s.ring
    State.note { s with ring := out.1 } app (.queue (.flag out.2))

def step (g : Config) (s : State) : Op → State
  | .call app req => call g s app req
  | .tick d => { s with kv := Kv.tick d s.kv, ring := Queue.tick d s.ring }

/-- A run, from freshly mapped tables. -/
abbrev ran (g : Config) (nowMs : Nat) (ops : List Op) : State :=
  Run.runs (step g) (.init nowMs) ops

/-! ## The statement -/

/-- The calls of the application, and the time. -/
def keeps (b : Ns.App) : Op → Bool
  | .call app _ => app = b
  | .tick _ => true

/-- **Isolation.** The application observes what it observes when all calls of others are left
out. -/
def Isolated (g : Config) (b : Ns.App) (nowMs : Nat) (ops : List Op) : Prop :=
  (ran g nowMs ops).seen b = (ran g nowMs (ops.filter (keeps b))).seen b

/-- Nothing is full where the call may write: the windows of its key, or the ring. The counters that
a push and a pop draw from are not at their last number. -/
def Fits (g : Config) (s : State) : Op → Prop
  | .call app (.kv name _) => Kv.RoomBoth g.kv (Ns.key (some app) name) s.kv
  | .call _ (.push _ _ _) =>
    (Queue.HasFree g.queue s.ring ∨ g.queue.slots = 0) ∧ s.ring.Unspent
  | .call _ (.pop _ _) => s.ring.Unspent
  | _ => True

def Op.queue? : Op → Option Bytes
  | .call app (.push queue _ _) => some (Ns.key (some app) queue)
  | .call app (.pop queue _) => some (Ns.key (some app) queue)
  | _ => none

def names (ops : List Op) : Set Bytes := { n | n ∈ ops.filterMap Op.queue? }

/-- Nothing fills up or runs out in the run with the others, or in the run without them, and the
hashes of different queue names are different. -/
structure Calm (g : Config) (b : Ns.App) (nowMs : Nat) (ops : List Op) : Prop where
  fits : Run.Along (step g) (Fits g) (.init nowMs) ops
  fits_alone : Run.Along (step g) (Fits g) (.init nowMs) (ops.filter (keeps b))
  hashes : Set.InjOn g.queue.hash (names ops)

/-- The application makes up no number that is a lease of its own. -/
def NoGuess (b : Ns.App) (s : State) : Op → Prop
  | .call app (.delete (.number n)) => app = b → n ∉ s.taken b
  | .call app (.release (.number n) _) => app = b → n ∉ s.taken b
  | _ => True

/-! ## Two runs -/

/-- The application has the same part of both states. -/
structure Same (g : Config) (ns : Set Bytes) (b : Ns.App) (s t : State) : Prop where
  sound : Kv.SoundBoth g.kv s.kv
  sound' : Kv.SoundBoth g.kv t.kv
  shelf : ∀ name, s.kv.shelf g.kv (Ns.key (some b) name) = t.kv.shelf g.kv (Ns.key (some b) name)
  clock : s.kv.nowMs = t.kv.nowMs
  tidy : Queue.Tidy g.queue ns s.ring
  tidy' : Queue.Tidy g.queue ns t.ring
  desk : ∃ d idOf idOf', Queue.Shows g.queue b s.ring (s.taken b) d idOf ∧
    Queue.Shows g.queue b t.ring (t.taken b) d idOf'
  ringClock : s.ring.nowMs = t.ring.nowMs
  seen : s.seen b = t.seen b

section
variable {g : Config} {ns : Set Bytes} {b : Ns.App} {s t : State}

theorem same_init (g : Config) (ns : Set Bytes) (b : Ns.App) (nowMs : Nat) :
    Same g ns b (.init nowMs) (.init nowMs) where
  sound r := Kv.sound_init g.kv r nowMs
  sound' r := Kv.sound_init g.kv r nowMs
  shelf _ := rfl
  clock := rfl
  tidy := Queue.tidy_init g.queue ns nowMs
  tidy' := Queue.tidy_init g.queue ns nowMs
  desk := ⟨.empty, _, _, Queue.shows_init g.queue b nowMs, Queue.shows_init g.queue b nowMs⟩
  ringClock := rfl
  seen := rfl

theorem Same.note (h : Same g ns b s t) (x : Seen) : Same g ns b (s.note b x) (t.note b x) :=
  { h with seen := by simp [State.note, h.seen] }

theorem Same.note_other (h : Same g ns b s t) {a : Ns.App} (hab : a ≠ b) (x : Seen) :
    Same g ns b (s.note a x) t :=
  { h with seen := by simp [State.note, hab.symm, h.seen] }

/-! ### The cache -/

theorem Same.withKv (h : Same g ns b s t) {m m' : Kv.Mem} (hm : Kv.SoundBoth g.kv m)
    (hm' : Kv.SoundBoth g.kv m')
    (hshelf : ∀ name, m.shelf g.kv (Ns.key (some b) name) = m'.shelf g.kv (Ns.key (some b) name))
    (hclock : m.nowMs = m'.nowMs) : Same g ns b { s with kv := m } { t with kv := m' } :=
  { h with sound := hm, sound' := hm', shelf := hshelf, clock := hclock }

theorem Same.kv (h : Same g ns b s t) {name : Bytes} {req : Kv.Req}
    (hroom : Kv.RoomBoth g.kv (Ns.key (some b) name) s.kv)
    (hroom' : Kv.RoomBoth g.kv (Ns.key (some b) name) t.kv) :
    Same g ns b (call g s b (.kv name req)) (call g t b (.kv name req)) := by
  have hs := Kv.code_serves h.sound ⟨some b, name, req⟩ hroom
  have ht := Kv.code_serves h.sound' ⟨some b, name, req⟩ hroom'
  have hsecs : s.kv.nowSecs = t.kv.nowSecs := by rw [Kv.Mem.nowSecs, h.clock, Kv.Mem.nowSecs]
  rw [hsecs, show s.kv.shelf g.kv (Kv.Call.key ⟨some b, name, req⟩) = _ from h.shelf name] at hs
  have hres := hs.res.trans ht.res.symm
  rw [call, call, hres]
  refine (h.withKv hs.sound ht.sound (fun name' => ?_) ?_).note _
  · by_cases hkey : Ns.key (some b) name' = Ns.key (some b) name
    · rw [hkey]
      exact hs.here.trans ht.here.symm
    · rw [hs.others _ hkey, ht.others _ hkey]
      exact h.shelf name'
  · rw [hs.clock, ht.clock, h.clock]

theorem Same.kv_other (h : Same g ns b s t) {a : Ns.App} (hab : a ≠ b) {name : Bytes}
    {req : Kv.Req} (hroom : Kv.RoomBoth g.kv (Ns.key (some a) name) s.kv) :
    Same g ns b (call g s a (.kv name req)) t := by
  have hs := Kv.code_serves h.sound ⟨some a, name, req⟩ hroom
  refine (h.withKv hs.sound h.sound' (fun name' => ?_) ?_).note_other hab _
  · rw [hs.others _ (Ns.key_ne hab.symm name' name)]
    exact h.shelf name'
  · rw [hs.clock, h.clock]

theorem Same.flush (h : Same g ns b s t) : Same g ns b (call g s b .flush) (call g t b .flush) := by
  obtain ⟨hs, hclock, hshelf⟩ := Kv.flushApp_shelf h.sound b
  obtain ⟨ht, hclock', hshelf'⟩ := Kv.flushApp_shelf h.sound' b
  refine (h.withKv hs ht (fun name => ?_) ?_).note _
  · rw [hshelf, hshelf', h.shelf name]
  · rw [hclock, hclock', h.clock]

theorem Same.flush_other (h : Same g ns b s t) {a : Ns.App} (hab : a ≠ b) :
    Same g ns b (call g s a .flush) t := by
  obtain ⟨hs, hclock, hshelf⟩ := Kv.flushApp_shelf h.sound a
  refine (h.withKv hs h.sound' (fun name => ?_) ?_).note_other hab _
  · rw [hshelf, if_neg fun hpre => hab.symm ((Ns.isPrefixOf_key b a name).1 hpre)]
    exact h.shelf name
  · rw [hclock, h.clock]

/-! ### The ring -/

theorem Same.withRing (h : Same g ns b s t) {r r' : Queue.Ring} {taken taken' : Ns.App → List Nat}
    (hr : Queue.Tidy g.queue ns r) (hr' : Queue.Tidy g.queue ns r')
    (hdesk : ∃ d idOf idOf', Queue.Shows g.queue b r (taken b) d idOf ∧
      Queue.Shows g.queue b r' (taken' b) d idOf') (hclock : r.nowMs = r'.nowMs) :
    Same g ns b { s with ring := r, taken } { t with ring := r', taken := taken' } :=
  { h with tidy := hr, tidy' := hr', desk := hdesk, ringClock := hclock }

theorem Same.withRing_other (h : Same g ns b s t) {r : Queue.Ring} {taken : Ns.App → List Nat}
    (hr : Queue.Tidy g.queue ns r) (haside : Queue.Aside g.queue b s.ring r)
    (htaken : taken b = s.taken b) (hclock : r.nowMs = s.ring.nowMs) :
    Same g ns b { s with ring := r, taken } t := by
  obtain ⟨d, idOf, idOf', hs, ht⟩ := h.desk
  refine h.withRing hr h.tidy' ⟨d, idOf, idOf', ?_, ht⟩ (hclock.trans h.ringClock)
  rw [htaken]
  exact hs.aside haside

/-- The desks are the same after a step of both, and so are the answers. -/
theorem Same.steps (h : Same g ns b s t) {d d₁ d₂ : Queue.Desk} {idOf : Nat → Nat}
    (hd : Queue.Shows g.queue b s.ring (s.taken b) d idOf) {q : Queue.Ask} {x₁ x₂ : Queue.Answer}
    (h₁ : Queue.Step g.queue s.ring.nowMs d q x₁ d₁)
    (h₂ : Queue.Step g.queue t.ring.nowMs d q x₂ d₂) : x₁ = x₂ ∧ d₁ = d₂ := by
  rw [← h.ringClock] at h₂
  exact h₁.det (hd.distinct h.tidy) h₂

/-- A push of the application, on both sides. -/
theorem Same.push (h : Same g ns b s t) {queue payload : Bytes} {delay : Nat}
    (hname : Ns.key (some b) queue ∈ ns) (hfits : Fits g s (.call b (.push queue payload delay)))
    (hfits' : Fits g t (.call b (.push queue payload delay))) :
    Same g ns b (call g s b (.push queue payload delay))
      (call g t b (.push queue payload delay)) := by
  obtain ⟨hfree, hleft⟩ := hfits
  obtain ⟨hfree', hleft'⟩ := hfits'
  have hroom : Queue.HasFree g.queue s.ring ∨ Queue.Refused g.queue payload := hfree.imp_right .inl
  have hroom' : Queue.HasFree g.queue t.ring ∨ Queue.Refused g.queue payload :=
    hfree'.imp_right .inl
  obtain ⟨d, idOf, idOf', hs, ht⟩ := h.desk
  obtain ⟨d₁, id₁, hs₁, hstep₁⟩ := Queue.shows_push hs hleft hroom queue delay
  obtain ⟨d₂, id₂, ht₂, hstep₂⟩ := Queue.shows_push ht hleft' hroom' queue delay
  obtain ⟨hx, rfl⟩ := h.steps hs hstep₁ hstep₂
  rw [call, call, hx]
  refine (h.withRing (h.tidy.push hname hroom hleft delay)
    (h.tidy'.push hname hroom' hleft' delay) ⟨d₁, id₁, id₂, hs₁, ht₂⟩ ?_).note _
  rw [Queue.push_nowMs, Queue.push_nowMs, h.ringClock]

/-- A pop of the application, on both sides. -/
theorem Same.pop (h : Same g ns b s t) (hinj : Set.InjOn g.queue.hash ns) {queue : Bytes}
    {visibility : Nat} (hname : Ns.key (some b) queue ∈ ns) (hleft : s.ring.Unspent)
    (hleft' : t.ring.Unspent) :
    Same g ns b (call g s b (.pop queue visibility)) (call g t b (.pop queue visibility)) := by
  obtain ⟨d, idOf, idOf', hs, ht⟩ := h.desk
  obtain ⟨d₁, hs₁, hstep₁⟩ := Queue.shows_pop hs h.tidy hleft hinj hname visibility
  obtain ⟨d₂, ht₂, hstep₂⟩ := Queue.shows_pop ht h.tidy' hleft' hinj hname visibility
  obtain ⟨hx, rfl⟩ := h.steps hs hstep₁ hstep₂
  rw [call, call, hx]
  refine (h.withRing (h.tidy.pop hleft _ visibility) (h.tidy'.pop hleft' _ visibility)
    ⟨d₁, idOf, idOf', ?_, ?_⟩ ?_).note _
  · rwa [update_self]
  · rwa [update_self]
  · rw [Queue.pop_nowMs, Queue.pop_nowMs, h.ringClock]

theorem resolve_same {d : Queue.Desk} {idOf idOf' : Nat → Nat}
    (hs : Queue.Shows g.queue b s.ring (s.taken b) d idOf)
    (ht : Queue.Shows g.queue b t.ring (t.taken b) d idOf') {lease : Lease}
    (hl : ∀ n, lease = .number n → n ∉ s.taken b ∧ n ∉ t.taken b) :
    (s.taken b).idxOf? (lease.resolve (s.taken b)) =
      (t.taken b).idxOf? (lease.resolve (t.taken b)) := by
  cases lease with
  | number n =>
    obtain ⟨hn, hn'⟩ := hl n rfl
    rw [Lease.resolve, Lease.resolve, idxOf?_eq_none_iff.2 hn, idxOf?_eq_none_iff.2 hn']
  | mine k =>
    have hlen := hs.pops.trans ht.pops.symm
    by_cases hk : k < (s.taken b).length
    · have hk' : k < (t.taken b).length := hlen ▸ hk
      rw [Lease.resolve, Lease.resolve, getElem?_eq_getElem hk, getElem?_eq_getElem hk',
        Option.getD_some, Option.getD_some,
        (Queue.idxOf?_eq_some hs.nodup).2 (getElem?_eq_getElem hk),
        (Queue.idxOf?_eq_some ht.nodup).2 (getElem?_eq_getElem hk')]
    · rw [Lease.resolve, Lease.resolve, getElem?_eq_none (Nat.not_lt.1 hk),
        getElem?_eq_none (hlen ▸ Nat.not_lt.1 hk), Option.getD_none, hs.idxOf?_zero,
        ht.idxOf?_zero]

theorem Same.delete (h : Same g ns b s t) {lease : Lease}
    (hl : ∀ n, lease = .number n → n ∉ s.taken b ∧ n ∉ t.taken b) :
    Same g ns b (call g s b (.delete lease)) (call g t b (.delete lease)) := by
  obtain ⟨d, idOf, idOf', hs, ht⟩ := h.desk
  obtain ⟨d₁, hs₁, hstep₁⟩ := Queue.shows_delete hs h.tidy (lease.resolve (s.taken b))
  obtain ⟨d₂, ht₂, hstep₂⟩ := Queue.shows_delete ht h.tidy' (lease.resolve (t.taken b))
  rw [← resolve_same hs ht hl] at hstep₂
  obtain ⟨hx, rfl⟩ := h.steps hs hstep₁ hstep₂
  rw [call, call, hx]
  refine (h.withRing (h.tidy.delete _ _) (h.tidy'.delete _ _) ⟨d₁, idOf, idOf', hs₁, ht₂⟩ ?_).note _
  rw [(h.tidy.delete_run _ _).nowMs, (h.tidy'.delete_run _ _).nowMs, h.ringClock]

theorem Same.release (h : Same g ns b s t) {lease : Lease} {delay : Nat}
    (hl : ∀ n, lease = .number n → n ∉ s.taken b ∧ n ∉ t.taken b) :
    Same g ns b (call g s b (.release lease delay)) (call g t b (.release lease delay)) := by
  obtain ⟨d, idOf, idOf', hs, ht⟩ := h.desk
  obtain ⟨d₁, hs₁, hstep₁⟩ := Queue.shows_release hs h.tidy (lease.resolve (s.taken b)) delay
  obtain ⟨d₂, ht₂, hstep₂⟩ := Queue.shows_release ht h.tidy' (lease.resolve (t.taken b)) delay
  rw [← resolve_same hs ht hl] at hstep₂
  obtain ⟨hx, rfl⟩ := h.steps hs hstep₁ hstep₂
  rw [call, call, hx]
  refine (h.withRing (h.tidy.release _ _ _) (h.tidy'.release _ _ _)
    ⟨d₁, idOf, idOf', hs₁, ht₂⟩ ?_).note _
  rw [(h.tidy.release_run _ _ _).nowMs, (h.tidy'.release_run _ _ _).nowMs, h.ringClock]

/-- A call of the application itself, on both sides. -/
theorem Same.call (h : Same g ns b s t) (hinj : Set.InjOn g.queue.hash ns) {req : Req}
    (hname : ∀ n, (Op.call b req).queue? = some n → n ∈ ns) (hfits : Fits g s (.call b req))
    (hfits' : Fits g t (.call b req)) (hguess : NoGuess b s (.call b req))
    (hguess' : NoGuess b t (.call b req)) :
    Same g ns b (Isolate.call g s b req) (Isolate.call g t b req) := by
  cases req with
  | kv name req => exact h.kv hfits hfits'
  | flush => exact h.flush
  | push queue payload delay => exact h.push (hname _ rfl) hfits hfits'
  | pop queue visibility => exact h.pop hinj (hname _ rfl) hfits hfits'
  | delete lease =>
    refine h.delete fun n hn => ?_
    subst hn
    exact ⟨hguess rfl, hguess' rfl⟩
  | release lease delay =>
    refine h.release fun n hn => ?_
    subst hn
    exact ⟨hguess rfl, hguess' rfl⟩

/-- A call of another application, which may present any number. -/
theorem Same.call_other (h : Same g ns b s t) (hinj : Set.InjOn g.queue.hash ns) {a : Ns.App}
    (hab : a ≠ b) {req : Req} (hname : ∀ n, (Op.call a req).queue? = some n → n ∈ ns)
    (hfits : Fits g s (.call a req)) : Same g ns b (Isolate.call g s a req) t := by
  cases req with
  | kv name req => exact h.kv_other hab hfits
  | flush => exact h.flush_other hab
  | push queue payload delay =>
    have hroom : Queue.HasFree g.queue s.ring ∨ Queue.Refused g.queue payload :=
      hfits.1.imp_right .inl
    exact (h.withRing_other (h.tidy.push (hname _ rfl) hroom hfits.2 delay)
      (Queue.aside_push hab hfits.2 hroom queue delay) rfl (Queue.push_nowMs ..)).note_other hab _
  | pop queue visibility =>
    exact (h.withRing_other (h.tidy.pop hfits _ visibility)
      (Queue.aside_pop h.tidy hfits hinj hab (hname _ rfl) visibility)
      (update_of_ne hab.symm ..) (Queue.pop_nowMs ..)).note_other hab _
  | delete lease =>
    exact (h.withRing_other (h.tidy.delete _ _) (Queue.aside_delete h.tidy hab _) rfl
      (h.tidy.delete_run _ _).nowMs).note_other hab _
  | release lease delay =>
    exact (h.withRing_other (h.tidy.release _ _ _) (Queue.aside_release h.tidy hab _ _) rfl
      (h.tidy.release_run _ _ _).nowMs).note_other hab _

theorem Same.tick (h : Same g ns b s t) (d : Nat) :
    Same g ns b (step g s (.tick d)) (step g t (.tick d)) := by
  obtain ⟨desk, idOf, idOf', hs, ht⟩ := h.desk
  have haside : ∀ r : Queue.Ring, Queue.Aside g.queue b r (Queue.tick d r) :=
    fun r => ⟨fun _ _ _ => rfl, le_rfl, le_rfl⟩
  exact
    { h with
      sound := fun r => (h.sound r).congr rfl
      sound' := fun r => (h.sound' r).congr rfl
      clock := congrArg (· + d) h.clock
      tidy := h.tidy.congr rfl rfl rfl
      tidy' := h.tidy'.congr rfl rfl rfl
      desk := ⟨desk, idOf, idOf', hs.aside (haside _), ht.aside (haside _)⟩
      ringClock := congrArg (· + d) h.ringClock }

end

/-- What a step has to meet for the two runs to go along with each other. -/
def Meets (g : Config) (ns : Set Bytes) (b : Ns.App) (s : State) (op : Op) : Prop :=
  (Fits g s op ∧ NoGuess b s op) ∧ ∀ n, op.queue? = some n → n ∈ ns

/-- **Applications are isolated.** An application that presents the leases it was given, or numbers
that none of its pops returned, observes the same whether the others call or not: in every run in
which nothing fills up and no counter comes to its end, with the calls of the others and without
them, and whatever leases the others present. -/
theorem isolation (g : Config) (b : Ns.App) (nowMs : Nat) (ops : List Op)
    (hcalm : Calm g b nowMs ops) (hguess : Run.Along (step g) (NoGuess b) (.init nowMs) ops)
    (hguess' : Run.Along (step g) (NoGuess b) (.init nowMs) (ops.filter (keeps b))) :
    Isolated g b nowMs ops := by
  have hnames : ∀ op ∈ ops, ∀ n, op.queue? = some n → n ∈ names ops :=
    fun op hop n hn => mem_filterMap.2 ⟨op, hop, hn⟩
  have hmeets : Along (step g) (Meets g (names ops) b) (.init nowMs) ops :=
    (hcalm.fits.and hguess).and_mem hnames
  have hmeets' : Along (step g) (Meets g (names ops) b) (.init nowMs)
      (ops.filter (keeps b)) :=
    (hcalm.fits_alone.and hguess').and_mem fun op hop => hnames op (mem_of_mem_filter hop)
  refine (runs_filter (R := Same g (names ops) b) ?_ ?_ hmeets hmeets'
    (same_init g (names ops) b nowMs)).seen
  · intro s t op hkeep hs ht h
    cases op with
    | tick d => exact h.tick d
    | call app req =>
      obtain rfl : app = b := of_decide_eq_true hkeep
      exact h.call hcalm.hashes hs.2 hs.1.1 ht.1.1 hs.1.2 ht.1.2
  · intro s t op hdrop hs h
    cases op with
    | tick d => cases hdrop
    | call app req =>
      have hab : app ≠ b := of_decide_eq_false hdrop
      exact h.call_other hcalm.hashes hab hs.2 hs.1.1

/-! ## Two applications -/

/-- The conditions can be checked. -/
instance decidableFits (g : Config) (s : State) : (op : Op) → Decidable (Fits g s op)
  | .call app (.kv name _) =>
    inferInstanceAs (Decidable (Kv.RoomBoth g.kv (Ns.key (some app) name) s.kv))
  | .call _ (.push _ _ _) =>
    inferInstanceAs
      (Decidable ((Queue.HasFree g.queue s.ring ∨ g.queue.slots = 0) ∧ s.ring.Unspent))
  | .call _ (.pop _ _) => inferInstanceAs (Decidable s.ring.Unspent)
  | .call _ .flush => .isTrue trivial
  | .call _ (.delete _) => .isTrue trivial
  | .call _ (.release _ _) => .isTrue trivial
  | .tick _ => .isTrue trivial

/-- Sixteen slots in each table. -/
def site : Config := { kv := .init Ns.bytesHash 16 16, queue := .init Ns.bytesHash 16 }

def first : Ns.App := ⟨List.replicate 16 101, by decide, by decide⟩
def second : Ns.App := ⟨List.replicate 16 102, by decide, by decide⟩

/-- Both have a key and a queue of the same name. The first one flushes its cache and presents the
lease of the second one. -/
def mixed : List Op :=
  [.call first (.kv [107] (.set [49] 0)), .call second (.kv [107] (.set [50] 0)),
    .call first (.push [113] [49] 0), .call first (.pop [113] 60),
    .call second (.push [113] [50] 0), .call second (.pop [113] 60), .tick 1000,
    .call first (.delete (.number 2)), .call first .flush, .call second (.kv [107] .get),
    .call second (.delete (.mine 0))]

theorem calm_mixed : Calm site second 0 mixed where
  fits := by decide +kernel
  fits_alone := by decide
  hashes x hx y hy h :=
    (by decide : ∀ x ∈ mixed.filterMap Op.queue?, ∀ y ∈ mixed.filterMap Op.queue?,
      site.queue.hash x = site.queue.hash y → x = y) x hx y hy h

/-- The second application has its value and its job. -/
theorem isolation_mixed : Isolated site second 0 mixed ∧ (ran site 0 mixed).seen second =
      [.kv (.flag true), .queue (.took true), .queue (.job (some (1, [50]))),
        .kv (.value (some [50])), .queue (.flag true)] := by
  have hnone : ∀ op ∈ mixed, ∀ s, NoGuess second s op := by
    simp [mixed, NoGuess, show first ≠ second by decide]
  have halong : ∀ ops, (∀ op ∈ ops, op ∈ mixed) →
      Along (step site) (NoGuess second) (.init 0) ops := fun ops hops =>
    (along_of_mem _ fun op hop => hnone op (hops op hop)).mono fun s _ h => h s
  exact ⟨isolation site second 0 mixed calm_mixed (halong _ fun _ => id)
    (halong _ fun _ => mem_of_mem_filter), by decide +kernel⟩

/-- Isolation for any numbers that the application presents. -/
def AlwaysIsolated (g : Config) : Prop :=
  ∀ (a b : Ns.App), a ≠ b → ∀ nowMs ops, (∀ app req, .call app req ∈ ops → app = a ∨ app = b) →
    Calm g b nowMs ops → Isolated g b nowMs ops

/-- The first application pops a job, so the second one's is out under lease `2`, and not under `1`
as it would be alone. -/
def guessed : List Op :=
  [.call first (.push [113] [49] 0), .call first (.pop [113] 60),
    .call second (.push [113] [50] 0), .call second (.pop [113] 60),
    .call second (.delete (.number 2))]

theorem guess_seen : ¬ AlwaysIsolated site := by
  intro h
  have happs : ∀ app req, .call app req ∈ guessed → app = first ∨ app = second := by
    intro app req hmem
    simp only [guessed, mem_cons, Op.call.injEq, not_mem_nil, or_false] at hmem
    rcases hmem with h | h | h | h | h <;> simp [h.1]
  have heq := h first second (by decide) 0 guessed happs
    ⟨by decide +kernel, by decide +kernel, fun x hx y hy hxy =>
      (by decide : ∀ x ∈ guessed.filterMap Op.queue?, ∀ y ∈ guessed.filterMap Op.queue?,
        site.queue.hash x = site.queue.hash y → x = y) x hx y hy hxy⟩
  revert heq
  unfold Isolated
  decide +kernel

end Askr.Isolate
