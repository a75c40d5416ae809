import Askr.Conc.Prog
import Askr.Pusher.Trigger
import Askr.Server.Handle

/-!
# Releasing the followers

`handle` as a task that is polled. A request that finds nothing in the cache claims its key
(`rcache::begin`), and those after it wait until it calls `rcache::end`. In between the body is
read, PHP runs and fragments are filled in, each an `.await`: the task has one action for each
stretch between them, and a task whose client goes away is stopped after some stretches.

A body that is refused ends the task without the release, and so does a client that goes away
(`released_iff`); then the followers wait until the claim expires (`leader_keeps_followers`). A task
that is polled to its end is `handle` of `Askr.Server.Handle` (`task_run`).
-/

namespace Askr.Server

open Bytes Policy Rcache State Pusher Conc

/-! ## What is received -/

inductive UploadError where
  | tooLarge
  | parse (e : Bytes)

/-- The settings for request bodies, and the Pusher side of the server. -/
structure Intake where
  maxBodySize : Nat
  /-- Is there a worker script? -/
  worker : Bool
  pusherEnabled : Bool
  pusherSecret : Option Bytes
  hmac : Hmac
  md5 : Bytes → Bytes
  /-- `unix_secs`. -/
  unixSecs : Nat
  /-- `pusher::trigger`: the answer to a trigger with the given body. -/
  trigger : Bytes → Bytes

/-- A request whose body is still on its way. -/
structure Arrival extends Incoming where
  /-- Does the body come to its end? -/
  whole : Bool
  /-- What `upload::parse` makes of the body. Its fields and files are for PHP. -/
  upload : Except UploadError Unit

def isMultipart (contentType : Bytes) : Bool :=
  eqIgnoreAsciiCase (contentType.takeWhile fun b => b ≠ 59 && b ≠ 44 && b ≠ 32)
    (ofString "multipart/form-data")

/-- Is the body an upload for the worker script? -/
def Intake.multipart (k : Intake) (arr : Arrival) : Bool :=
  (getStr arr.req.headers (ofString "content-type")).any isMultipart && k.worker

/-- The declared length is over the limit. -/
def Intake.declaresTooMuch (k : Intake) (arr : Arrival) : Bool :=
  ((getStr arr.req.headers (ofString "content-length")).bind parseU64).any (· > k.maxBodySize)

/-- `upload::parse`, with its limit on the declared length. -/
def Intake.uploaded (k : Intake) (arr : Arrival) : Except UploadError Unit :=
  if k.declaresTooMuch arr then .error .tooLarge else arr.upload

/-- `Limited::new(body, max).collect()`. -/
def Intake.collected (k : Intake) (arr : Arrival) : Option Bytes :=
  if arr.whole && arr.body.length ≤ k.maxBodySize then some arr.body else none

/-- The answer to an upload that was not taken. -/
def UploadError.response : UploadError → HttpResponse
  | tooLarge => text 413 (ofString "askr: upload too large")
  | parse e => text 400 (ofString "askr: bad upload: " ++ e)

/-- The answer to a body over the limit. -/
def bodyTooLarge : HttpResponse := text 413 (ofString "askr: request body too large")

def isTrigger (path : Bytes) : Bool :=
  (ofString "/apps/").isPrefixOf path && (ofString "/events").isSuffixOf path

/-- The answer to a trigger, if the request is one. -/
def Intake.triggered (k : Intake) (arr : Arrival) (body : Bytes) : Option HttpResponse :=
  if k.pusherEnabled && arr.req.method == ofString "POST" && isTrigger arr.req.uri.path then
    let refused := k.pusherSecret.bind fun secret =>
      match verifyTrigger k.hmac k.md5 secret arr.req.uri.path arr.req.uri.query body
          k.unixSecs with
      | .error why => some why
      | .ok () => none
    match refused with
    | some why => some (text 401 (ofString "askr: pusher trigger refused: " ++ ofString why.text))
    | none => some
      { status := 200, headers := [(ofString "content-type", ofString "application/json")]
        content := k.trigger body, coded := none }
  else none

/-- The body is received: an upload is taken, any other body is within the limit. -/
def Intake.receives (k : Intake) (arr : Arrival) : Bool :=
  if k.multipart arr then (k.uploaded arr).isOk
  else !k.declaresTooMuch arr && (k.collected arr).isSome

/-! ## The task -/

/-- The state of the server, and what a request has done about its claim. -/
structure Flying where
  st : St
  /-- The key that the request was made the leader of. -/
  led : Option Bytes
  /-- The keys for which it called `rcache::end`. -/
  ended : List Bytes

abbrev Part := StateM Flying

/-- A request is on its way. -/
abbrev Task := Prog Flying HttpResponse

/-- Something that does not touch the claim. -/
def lift {α : Type} (x : Serve α) : Part α := fun f => ((x f.st).1, { f with st := (x f.st).2 })

section
variable (env : Env) (cfg : Config) (k : Intake) (arr : Arrival)

/-- `stale_error_fallback` for a response that is an error. -/
def fallBack (key : Option Bytes) (response : HttpResponse) : Serve HttpResponse :=
  match key with
  | none => pure response
  | some key =>
    if response.status ≥ 500 then do
      let fallback ← staleErrorFallback env arr.toIncoming key
      pure (fallback.getD response)
    else pure response

/-- `rcache::end`, of the leader. -/
def release (key : Option Bytes) (leader : Bool) : Part Unit :=
  if leader then modify fun f => { f with ended := key.toList ++ f.ended } else pure ()

/-- The end of `handle`. -/
def finish (key : Option Bytes) (leader : Bool) (response : HttpResponse) : Part Task := do
  let response ← lift (fallBack env arr key response)
  release key leader
  pure (.ret response)

/-- The rest of `handle`, with the reply of PHP. Filling in fragments is a stretch of its own. -/
def answer (key : Option Bytes) (leader : Bool) : Reply → Part Task
  | .stream status headers => finish env arr key leader (streamResponse env status headers)
  | .failed why => finish env arr key leader (text 502 (ofString "askr: " ++ why))
  | .buffered resp => do
    lift (keepResponse env cfg arr.toIncoming resp key)
    let state :=
      if cfg.passes arr.req.uri.path then some (ofString "PASS")
      else if env.enabled then some (ofString "MISS") else none
    if esiRequested resp.headers && hasTags resp.body then
      pure (.stretch do
        let body ← lift (esiExpand (esiFragment env cfg arr.toIncoming) resp.body)
        finish env arr key leader (buildResponse env { resp with body } state arr.acceptEncoding))
    else finish env arr key leader (buildResponse env resp state arr.acceptEncoding)

def php (key : Option Bytes) (leader : Bool) (body : Bytes) : Part Task :=
  pure (.stretch do
    let reply ← lift (runPhp env (buildRequest env.around
      (cfg.context (handleSite cfg arr.req) arr.peer arr.port) arr.req body))
    answer env cfg arr key leader reply)

def receive (key : Option Bytes) (leader : Bool) : Part Task :=
  if k.multipart arr then
    pure (.stretch
      (match k.uploaded arr with
      | .error e => pure (.ret e.response)
      | .ok () => php env cfg arr key leader []))
  else if k.declaresTooMuch arr then pure (.ret bodyTooLarge)
  else
    pure (.stretch
      (match k.collected arr with
      | none => pure (.ret bodyTooLarge)
      | some body =>
        match k.triggered arr body with
        | some response => pure (.ret response)
        | none => php env cfg arr key leader body))

/-- The request claims its key, or waits for the one that has. -/
def claim (key : Bytes) : Part Task := do
  let t ← lift (next env)
  if env.leads t key then do
    modify fun f => { f with led := some key }
    receive env cfg k arr (some key) true
  else
    pure (.stretch
      (if env.leaderEnds t key then do
        let served ← lift (serveFollower env arr.toIncoming key)
        match served with
        | some response => pure (.ret response)
        | none => receive env cfg k arr (some key) false
      else receive env cfg k arr (some key) false))

/-- A hit. Filling in fragments is a stretch of its own. -/
def hit (key : Bytes) (c : Cached) (varied : Bool) : Part Task := do
  lift (revalidate env cfg key arr.toIncoming c varied)
  let served : Part Task := do
    let response ← lift (serveHit env cfg arr.toIncoming c)
    pure (.ret response)
  if esiRequested c.headers && hasTags c.body then pure (.stretch served) else served

/-- A request that is looked up. -/
def ask (key : Bytes) : Part Task := do
  let found ← lift (resolve env .get arr.req.uri.path key arr.req.headers)
  match found with
  | some (c, varied) => hit env cfg arr key c varied
  | none => do
    let t ← lift (next env)
    if env.saint t then do
      let fallback ← lift (staleErrorFallback env arr.toIncoming key)
      match fallback with
      | some response => pure (.ret response)
      | none => claim env cfg k arr key
    else claim env cfg k arr key

/-- `handle`, as a task. -/
def task : Task :=
  .stretch do
    let t ← lift (next env)
    match turnedAway env t arr.toIncoming with
    | some response => pure (.ret response)
    | none =>
      if env.enabled && !env.replaying t && cfg.cacheable arr.req then
        ask env cfg k arr (cfg.cacheKey arr.req)
      else receive env cfg k arr none false

/-- The request after `n` stretches, which is all there is of it if its client goes away then. -/
def stopped (st : St) (n : Nat) : Flying × Task :=
  (task env cfg k arr).steps n { st, led := none, ended := [] }

end

/-! ## The claim along the task -/

/-- The request has not released anything yet, and leads its key if it is a leader. -/
def Claimed (key : Option Bytes) (leader : Bool) (f : Flying) : Prop :=
  f.led = (if leader then key else none) ∧ f.ended = []

/-- A request that has returned has released its key if its body was received. -/
def Settled (k : Intake) (arr : Arrival) (f : Flying) : Prop :=
  ∀ key, f.led = some key → (key ∈ f.ended ↔ k.receives arr)

/-- What is left of the task releases nothing until it returns, and is settled then. -/
def Leaves (k : Intake) (arr : Arrival) (I : Flying → Prop) (x : Part Task) : Prop :=
  ∀ f, I f → (x f).1.During (fun f => f.ended = []) (fun _ => Settled k arr) (x f).2

section
variable {env : Env} {cfg : Config} {k : Intake} {arr : Arrival} {I J : Flying → Prop}
  {key : Option Bytes} {leader : Bool}

theorem Leaves.bind {α : Type} {x : Part α} {g : α → Part Task} (hx : Ends I x J)
    (hg : ∀ a, Leaves k arr J (g a)) : Leaves k arr I (x >>= g) :=
  fun f hf => hg _ _ (hx f hf)

theorem Leaves.ret (h : ∀ f, I f → Settled k arr f) (response : HttpResponse) :
    Leaves k arr I (pure (.ret response)) := fun f hf => h f hf

theorem Leaves.stretch {x : Part Task} (h : Leaves k arr (Claimed key leader) x) :
    Leaves k arr (Claimed key leader) (pure (.stretch x)) := fun f hf => ⟨hf.2, h f hf⟩

theorem Leaves.ite {c : Prop} [Decidable c] {x y : Part Task} (hx : c → Leaves k arr I x)
    (hy : ¬ c → Leaves k arr I y) : Leaves k arr I (if c then x else y) := by
  split
  · exact hx ‹_›
  · exact hy ‹_›

theorem lift_keeps {α : Type} (x : Serve α) : Keeps (Claimed key leader) (lift x) :=
  fun _ hf => hf

theorem settled_of_led_none {f : Flying} (h : f.led = none) : Settled k arr f := by
  intro key hkey
  cases h.symm.trans hkey

theorem settled_of_refused (hbody : ¬ k.receives arr) {f : Flying} (h : Claimed key leader f) :
    Settled k arr f := by
  intro key _
  rw [h.2]
  exact iff_of_false List.not_mem_nil hbody

theorem finish_leaves (hbody : k.receives arr) (response : HttpResponse) :
    Leaves k arr (Claimed key leader) (finish env arr key leader response) := by
  refine Leaves.bind (lift_keeps _) fun response => ?_
  refine Leaves.bind (J := Settled k arr) ?_ fun _ => .ret (fun _ => id) _
  rintro f ⟨hled, hended⟩ key' hkey'
  rw [release] at hkey' ⊢
  cases leader with
  | true =>
    have hkey : key = some key' := hled.symm.trans hkey'
    refine iff_of_true ?_ hbody
    rw [hkey]
    exact .head _
  | false => cases hled.symm.trans hkey'

theorem answer_leaves (hbody : k.receives arr) (reply : Reply) :
    Leaves k arr (Claimed key leader) (answer env cfg arr key leader reply) := by
  cases reply with
  | stream | failed => exact finish_leaves hbody _
  | buffered resp =>
    refine Leaves.bind (lift_keeps _) fun _ => Leaves.ite (fun _ => ?_) fun _ => ?_
    · exact .stretch (Leaves.bind (lift_keeps _) fun _ => finish_leaves hbody _)
    · exact finish_leaves hbody _

theorem php_leaves (hbody : k.receives arr) (body : Bytes) :
    Leaves k arr (Claimed key leader) (php env cfg arr key leader body) :=
  .stretch (Leaves.bind (lift_keeps _) fun reply => answer_leaves hbody reply)

theorem triggered_eq_none (h : cfg.cacheable arr.req = true) (body : Bytes) :
    k.triggered arr body = none := by
  have hpost : (arr.req.method == ofString "POST") = false := by
    rw [Config.cacheable] at h
    simp only [Bool.and_eq_true, Bool.or_eq_true, beq_iff_eq] at h
    rcases h.1.2 with hm | hm <;> rw [hm] <;> decide
  rw [Intake.triggered, hpost]
  simp

/-- **The body**: if it is not received, the task ends here, and nothing is released. -/
theorem receive_leaves (hkey : key ≠ none → cfg.cacheable arr.req = true) :
    Leaves k arr (Claimed key leader) (receive env cfg k arr key leader) := by
  refine Leaves.ite (fun hmulti => ?_) fun hmulti => Leaves.ite (fun hlong => ?_) fun hlong => ?_
  · refine .stretch ?_
    cases hup : k.uploaded arr with
    | error e =>
      refine .ret (fun f => settled_of_refused ?_) _
      rw [Intake.receives, if_pos hmulti, hup]
      exact Bool.false_ne_true
    | ok u =>
      refine php_leaves ?_ _
      rw [Intake.receives, if_pos hmulti, hup]
      rfl
  · refine .ret (fun f => settled_of_refused ?_) _
    rw [Intake.receives, if_neg hmulti]
    simp [hlong]
  · refine .stretch ?_
    cases hcol : k.collected arr with
    | none =>
      refine .ret (fun f => settled_of_refused ?_) _
      rw [Intake.receives, if_neg hmulti, hcol]
      simp
    | some body =>
      dsimp only
      cases htrig : k.triggered arr body with
      | some response =>
        refine .ret (fun f hf => settled_of_led_none ?_) _
        have hnone : key = none := by
          by_contra hne
          rw [triggered_eq_none (hkey hne)] at htrig
          cases htrig
        rw [hf.1, hnone, ite_self]
      | none =>
        refine php_leaves ?_ _
        rw [Intake.receives, if_neg hmulti, hcol]
        simpa using hlong

theorem claim_leaves (hcache : cfg.cacheable arr.req = true) (key : Bytes) :
    Leaves k arr (Claimed none false) (claim env cfg k arr key) := by
  refine Leaves.bind (lift_keeps _) fun t => Leaves.ite (fun _ => ?_) fun _ => .stretch ?_
  · refine Leaves.bind (J := Claimed (some key) true) (fun f hf => ⟨rfl, hf.2⟩) fun _ => ?_
    exact receive_leaves fun _ => hcache
  · have hfollow : Leaves k arr (Claimed none false) (receive env cfg k arr (some key) false) :=
      fun f hf => receive_leaves (fun _ => hcache) f (show Claimed (some key) false f from hf)
    refine Leaves.ite (fun _ => ?_) fun _ => hfollow
    refine Leaves.bind (lift_keeps _) fun served => ?_
    cases served with
    | some response => exact .ret (fun f hf => settled_of_led_none hf.1) _
    | none => exact hfollow

theorem hit_leaves (key : Bytes) (c : Cached) (varied : Bool) :
    Leaves k arr (Claimed none false) (hit env cfg arr key c varied) := by
  have hserved : Leaves k arr (Claimed none false) (do
      let response ← lift (serveHit env cfg arr.toIncoming c)
      pure (.ret response)) :=
    Leaves.bind (lift_keeps _) fun _ => .ret (fun f hf => settled_of_led_none hf.1) _
  exact Leaves.bind (lift_keeps _) fun _ => Leaves.ite (fun _ => hserved.stretch) fun _ => hserved

theorem ask_leaves (hcache : cfg.cacheable arr.req = true) (key : Bytes) :
    Leaves k arr (Claimed none false) (ask env cfg k arr key) := by
  refine Leaves.bind (lift_keeps _) fun found => ?_
  cases found with
  | some x => exact hit_leaves key x.1 x.2
  | none =>
    refine Leaves.bind (lift_keeps _) fun t => Leaves.ite (fun _ => ?_) fun _ =>
      claim_leaves hcache key
    refine Leaves.bind (lift_keeps _) fun fallback => ?_
    cases fallback with
    | some response => exact .ret (fun f hf => settled_of_led_none hf.1) _
    | none => exact claim_leaves hcache key

theorem task_during (env : Env) (cfg : Config) (k : Intake) (arr : Arrival) (st : St) :
    (task env cfg k arr).During (fun f => f.ended = []) (fun _ => Settled k arr)
      { st, led := none, ended := [] } := by
  have hopen : Leaves k arr (Claimed none false) (pure (task env cfg k arr)) := by
    refine .stretch (Leaves.bind (lift_keeps _) fun t => ?_)
    split
    · exact .ret (fun f hf => settled_of_led_none hf.1) _
    · refine Leaves.ite (fun hcache => ?_) fun _ => receive_leaves fun h => absurd rfl h
      exact ask_leaves (Bool.and_eq_true_iff.1 hcache).2 _
  exact hopen _ ⟨rfl, rfl⟩

end

/-! ## Leaders -/

/-- A request that was made the leader of a key has released it, wherever it is stopped. -/
def Releases (k : Intake) : Prop :=
  ∀ (env : Env) (cfg : Config) (arr : Arrival) (st : St) (n : Nat) (key : Bytes),
    (stopped env cfg k arr st n).1.led = some key →
      key ∈ (stopped env cfg k arr st n).1.ended

/-- **A leader releases its followers** exactly when its body is received and it is polled to its
end. -/
theorem released_iff {env : Env} {cfg : Config} {k : Intake} {arr : Arrival} {st : St} {n : Nat}
    {key : Bytes} (hled : (stopped env cfg k arr st n).1.led = some key) :
    key ∈ (stopped env cfg k arr st n).1.ended ↔
      k.receives arr ∧ (stopped env cfg k arr st n).2.result?.isSome := by
  have hduring := (task_during env cfg k arr st).steps n
  rw [← stopped] at hduring
  generalize stopped env cfg k arr st n = x at hduring hled ⊢
  obtain ⟨f, p⟩ := x
  cases p with
  | ret response => simpa [Prog.result?] using hduring key hled
  | act u next =>
    have hended : f.ended = [] := hduring.1
    simp [hended, Prog.result?]

/-- A setting with a limit of one byte for request bodies, and no Pusher. -/
def oneByte : Intake where
  maxBodySize := 1
  worker := false
  pusherEnabled := false
  pusherSecret := none
  hmac _ m := m
  md5 := id
  unixSecs := 0
  trigger _ := []

theorem lower_contentLength :
    toAsciiLowercase (ofString "content-length") = ofString "content-length" := by decide

/-- A `GET` that declares a body of the given length, which it does not send. -/
def declaring (len : Bytes) (ok : len.all admitted = true) : Arrival where
  req := { hostlessRequest with
    headers :=
      ⟨ofString "content-length", len, lower_contentLength, ok⟩ :: hostlessRequest.headers }
  peer := gateway
  port := 0
  body := []
  whole := true
  upload := .ok ()

/-- A leader with a body of one byte, which PHP then fails on. -/
theorem released_iff_one : (wildcardConfig []).cacheKey (declaring (ofString "1") rfl).req ∈
      (stopped quietEnv (wildcardConfig []) oneByte (declaring (ofString "1") rfl)
        (.init 16) 3).1.ended := by
  refine (released_iff ?_).2 ⟨?_, ?_⟩
  · decide
  · decide
  · decide

/-- **A leader keeps its followers waiting.** A request declares a body over the limit. It is made
the leader of its key, and answered with 413. -/
theorem leader_keeps_followers : ¬ ∀ k, Releases k := by
  intro h
  have hended := h oneByte quietEnv (wildcardConfig []) (declaring (ofString "2") rfl) (.init 16) 1
    ((wildcardConfig []).cacheKey (declaring (ofString "2") rfl).req) (by decide)
  revert hended
  decide

/-! ## The task to its end -/

/-- To its end the task does what the computation does. -/
def Runs (x : Part Task) (y : Serve HttpResponse) : Prop :=
  ∀ f, ((x f).1.run (x f).2).1.st = (y f.st).2 ∧ ((x f).1.run (x f).2).2 = (y f.st).1

section
variable {env : Env} {cfg : Config} {k : Intake} {arr : Arrival} {key : Option Bytes}
  {leader : Bool} {x x' : Part Task} {y y' : Serve HttpResponse}

theorem Runs.ret (response : HttpResponse) : Runs (pure (.ret response)) (pure response) :=
  fun _ => ⟨rfl, rfl⟩

theorem Runs.stretch (h : Runs x y) : Runs (pure (.stretch x)) y := h

theorem Runs.bind {α : Type} {z : Serve α} {g : α → Part Task} {g' : α → Serve HttpResponse}
    (h : ∀ a, Runs (g a) (g' a)) : Runs (lift z >>= g) (z >>= g') :=
  fun _ => h _ _

theorem Runs.ite {c : Prop} [Decidable c] (h : Runs x y) (h' : Runs x' y') :
    Runs (if c then x else x') (if c then y else y') := by
  split
  exacts [h, h']

theorem finish_runs (response : HttpResponse) :
    Runs (finish env arr key leader response) (fallBack env arr key response) := by
  intro f
  rw [finish]
  cases leader <;> exact ⟨rfl, rfl⟩

theorem answer_runs (reply : Reply) : Runs (answer env cfg arr key leader reply)
      (respond env cfg arr.toIncoming key reply >>= fallBack env arr key) := by
  cases reply with
  | stream | failed => exact finish_runs _
  | buffered resp =>
    have hrespond : (respond env cfg arr.toIncoming key (.buffered resp) >>= fallBack env arr key) =
        (keepResponse env cfg arr.toIncoming resp key >>= fun _ =>
          responseBody env cfg arr.toIncoming resp >>= fun body =>
            fallBack env arr key (buildResponse env { resp with body }
              (if cfg.passes arr.req.uri.path then some (ofString "PASS")
              else if env.enabled then some (ofString "MISS") else none) arr.acceptEncoding)) := rfl
    rw [hrespond, responseBody, answer]
    generalize (if cfg.passes arr.req.uri.path then some (ofString "PASS")
      else if env.enabled then some (ofString "MISS") else none) = state
    refine Runs.bind fun _ => ?_
    dsimp only
    split
    · exact Runs.stretch (Runs.bind fun body => finish_runs _)
    · exact finish_runs _

/-- The stretch that runs PHP is `render`. -/
theorem php_runs :
    Runs (php env cfg arr key leader arr.body) (render env cfg arr.toIncoming key) := by
  refine Runs.stretch ?_
  have hrender : render env cfg arr.toIncoming key = (do
      let reply ← runPhp env (buildRequest env.around
        (cfg.context (handleSite cfg arr.req) arr.peer arr.port) arr.req arr.body)
      respond env cfg arr.toIncoming key reply >>= fallBack env arr key) := by
    cases key <;> rfl
  rw [hrender]
  exact Runs.bind fun reply => answer_runs reply

/-- The request is not an upload for a worker script or a trigger, and its body is received. -/
structure Plain (k : Intake) (arr : Arrival) : Prop where
  upload : k.multipart arr = false
  receives : k.receives arr = true
  trigger : k.triggered arr arr.body = none

theorem receive_runs (h : Plain k arr) :
    Runs (receive env cfg k arr key leader) (render env cfg arr.toIncoming key) := by
  obtain ⟨hmulti, hreceives, htrigger⟩ := h
  rw [Intake.receives, if_neg (by simp [hmulti]), Bool.and_eq_true] at hreceives
  have hcol : k.collected arr = some arr.body := by
    have hsome := hreceives.2
    rw [Intake.collected] at hsome ⊢
    split
    · rfl
    · rename_i hc
      rw [if_neg hc] at hsome
      cases hsome
  rw [receive, if_neg (by simp [hmulti]), if_neg (by simpa using hreceives.1), hcol]
  dsimp only
  rw [htrigger]
  exact Runs.stretch php_runs

/-- A plain arrival that missed is handled as `miss` says. -/
theorem claim_runs (h : Plain k arr) (key : Bytes) :
    Runs (claim env cfg k arr key) (miss env cfg arr.toIncoming key) := by
  refine Runs.bind fun t => Runs.ite (fun f => receive_runs h _) (Runs.stretch (Runs.ite ?_ ?_))
  · refine Runs.bind fun served => ?_
    cases served with
    | some response => exact .ret _
    | none => exact receive_runs h
  · exact receive_runs h

/-- A plain arrival is looked up as `lookup` says. -/
theorem ask_runs (h : Plain k arr) (key : Bytes) :
    Runs (ask env cfg k arr key) (lookup env cfg arr.toIncoming key) := by
  refine Runs.bind fun found => ?_
  cases found with
  | some x =>
    refine Runs.bind (z := revalidate env cfg key arr.toIncoming x.1 x.2) fun _ => ?_
    have hserved : Runs (do
        let response ← lift (serveHit env cfg arr.toIncoming x.1)
        pure (.ret response)) (serveHit env cfg arr.toIncoming x.1) := fun f => ⟨rfl, rfl⟩
    split
    · exact hserved.stretch
    · exact hserved
  | none =>
    refine Runs.bind fun t => Runs.ite (Runs.bind fun fallback => ?_) (claim_runs h key)
    cases fallback with
    | some response => exact .ret _
    | none => exact claim_runs h key

end

/-- **The task is `handle`**, for a request whose body is received and that is polled to its end. -/
theorem task_run (env : Env) (cfg : Config) {k : Intake} {arr : Arrival} (h : Plain k arr)
    (f : Flying) : ((task env cfg k arr).run f).1.st = (handle env cfg arr.toIncoming f.st).2 ∧
      ((task env cfg k arr).run f).2 = (handle env cfg arr.toIncoming f.st).1 := by
  have hruns : Runs (pure (task env cfg k arr)) (handle env cfg arr.toIncoming) := by
    refine Runs.stretch (Runs.bind fun t => ?_)
    cases turnedAway env t arr.toIncoming with
    | some response => exact .ret response
    | none => exact Runs.ite (ask_runs h _) (receive_runs h)
  exact hruns f

end Askr.Server
