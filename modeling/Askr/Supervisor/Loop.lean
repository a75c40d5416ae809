import Askr.Conc.Contract
import Mathlib.Algebra.GroupWithZero.Nat

/-!
# The supervisor

The master keeps a worker process in each of its slots. One thread makes the rounds: it reaps
workers that have exited, forks new ones, and judges the first worker that a reload has restarted,
the canary. A reload is begun by any other thread, or by the handler of `SIGHUP` in the middle of a
round. It sends `SIGTERM` to one worker, and the exit of that worker makes the loop go on with the
next one.

Each action is on one of the atomic variables: the counters of a worker go up one at a time and are
read one at a time. Actions on variables of the loop alone are one action. The pools of queue
workers have a fixed size, and process ids are not used again. The fields of `State` from `owner` on
are not in the program: they say which worker is counted and what the threads are in the middle of.
-/

namespace Askr.Supervisor

open Conc Conc.Prog Function Nat List

def MAX_WORKERS : Nat := 512

/-- A worker that fails in its first seconds has failed to boot. -/
def BOOT_FAIL_SECS : Nat := 3

/-- The time in which failures to boot are added up. -/
def FASTFAIL_WINDOW_SECS : Nat := 30

/-- What is set before the supervisor starts. The first `web` of the `workers` slots are for web
workers. The comparisons of error rates and latencies are made with floating-point numbers and are
parameters. `rounds` is how often `roll_next` looks for a worker at most; every run stays within
some number of them. The first `phpWorkers` slots run PHP and are recycled when their memory reaches
`maxRssMb`, if that is not 0. -/
structure Config where
  web : Nat
  workers : Nat
  phpWorkers : Nat
  maxRssMb : Nat
  canary : Bool
  verify : Bool
  metrics : Bool
  canaryWindow : Nat
  canaryMinRequests : Nat
  errorRateOver : Nat → Nat → Nat → Nat → Bool
  latencyOver : Nat → Nat → Bool
  verifyTimeout : Nat
  bootTime : Nat
  rounds : Nat
  web_le : web ≤ workers
  workers_le : workers ≤ MAX_WORKERS

/-- A worker process: its slot, how many reloads had begun when it was forked, and whether it
replays requests. -/
structure Worker where
  pid : Nat
  slot : Nat
  era : Nat
  replays : Bool
deriving DecidableEq

/-- `WorkerStat`, with the worker that each request was counted by. -/
structure Stat where
  requests : List Worker
  errors : Nat
  usSum : Nat

def Stat.zero : Stat := { requests := [], errors := 0, usSum := 0 }

inductive ReplayState where
  | idle
  | replaying
  | done
deriving DecidableEq

/-- The verdict of a replay in shared memory, with the worker that each page was replayed by. -/
structure Region where
  state : ReplayState
  replayed : List Worker
  regressed : Nat

/-- What is wrong with a canary. -/
inductive Reason where
  | died
  | errorRate
  | latency
  | verification
deriving DecidableEq

inductive Verdict where
  | healthy (requests : Nat)
  | inconclusive (requests needed : Nat)
  | unhealthy (reason : Reason)
deriving DecidableEq

/-- The rest of the workers may roll. -/
def Verdict.rolls : Verdict → Bool
  | .unhealthy _ => false
  | _ => true

inductive Gate where
  | wait
  | pass (replayed : List Worker)
  | fail

def Gate.replayed : Gate → List Worker
  | .pass replayed => replayed
  | _ => []

/-- A verdict about a reload, and what was counted for it. -/
structure Judgement where
  reload : Nat
  verdict : Verdict
  requests : List Worker
  replayed : List Worker
deriving DecidableEq

/-- What is of interest: a reload begins, a verdict is given, a slot is sent `SIGTERM` by a
reload. -/
inductive Entry where
  | began
  | judged (j : Judgement)
  | rolled (slot : Nat)
deriving DecidableEq

/-- The variables of the master, the counters in shared memory and the processes. -/
structure State where
  children : Nat → Nat
  shutdown : Bool
  reloadCursor : Nat
  quarantined : Nat → Bool
  canaryActive : Bool
  canaryDeadline : Nat
  canaryFleetReq : Nat
  canaryFleetErr : Nat
  canaryFleetUs : Nat
  spawnAt : Nat → Nat
  fastfailWindow : Nat
  fastfailCount : Nat
  recycleSent : Nat → Nat
  memRecycleCount : Nat
  perWorker : Nat → Stat
  region : Region
  now : Nat
  /-- The id of the next process, and whether `fork` fails. -/
  nextPid : Nat
  forkFails : Bool
  /-- The memory of a process, if it can be read. -/
  rss : Nat → Option Nat
  /-- The workers that run. -/
  live : List Worker
  /-- Ids of the workers that have exited and are not reaped, and whether they failed. -/
  zombies : List (Nat × Bool)
  /-- The processes that were sent `SIGTERM`. -/
  signalled : List Nat
  /-- The worker that was forked last for a slot. -/
  owner : Nat → Worker
  /-- How many reloads have begun, and the last of them that has set the canary flag. -/
  began : Nat
  active : Nat
  /-- The threads that are in `begin_reload`, and the numbers of their reloads. -/
  starting : List (Nat × Nat)
  /-- The loop judges a canary, is about to roll a worker, or is busy with one that has exited. -/
  deciding : Bool
  rolling : Bool
  reaping : Bool
  /-- The master has given up on workers that do not boot. -/
  gaveUp : Bool
  /-- What has happened, newest first. -/
  log : List Entry

variable (cfg : Config)

/-! ## Slots -/

def store {α : Type} (f : State → State) (p : Prog State α) : Prog State α := .act f fun _ => p

section
variable {α : Type} {R G : State → State → Prop} {Q : α → State → Prop} {f : State → State}
  {p : Prog State α} {s : State}

theorem valid_store (h : ∀ s', R s s' → G s' (f s') ∧ p.Valid R G Q (f s')) :
    (store f p).Valid R G Q s := h

theorem guar_store (hf : ∀ s, G s (f s)) (hp : p.Guar G) : (store f p).Guar G :=
  fun s => ⟨hf s, hp⟩

end

/-- `kill(pid, SIGTERM)`. -/
def State.kill (s : State) (pid : Nat) : State := { s with signalled := pid :: s.signalled }

/-- `SIGTERM` to the worker in a slot, for a reload. -/
def State.roll (s : State) (i pid : Nat) : State := { s.kill pid with log := .rolled i :: s.log }

/-- The worker that is forked for a slot. -/
def State.child (s : State) (i : Nat) : Worker :=
  { pid := s.nextPid, slot := i, era := s.began
    replays := i == 0 && cfg.verify && s.canaryActive }

def State.fork (s : State) (i : Nat) : State :=
  { s with
    nextPid := s.nextPid + 1
    live := s.child cfg i :: s.live
    owner := update s.owner i (s.child cfg i) }

/-- One of the counters of a slot is set. -/
def State.setStat (s : State) (i : Nat) (f : Stat → Stat) : State :=
  { s with perWorker :=
      if cfg.metrics then update s.perWorker i (f (s.perWorker i)) else s.perWorker }

/-- `WorkerStat::reset`. -/
def resetStat (i : Nat) (p : Prog State Unit) : Prog State Unit :=
  store (fun s => s.setStat cfg i fun st => { st with requests := [] }) <|
  store (fun s => s.setStat cfg i fun st => { st with errors := 0 }) <|
  store (fun s => s.setStat cfg i fun st => { st with usSum := 0 }) p

/-- The new worker of a slot goes on record. -/
def State.seat (s : State) (i pid : Nat) : State :=
  { s with
    children := update s.children i pid
    spawnAt := update s.spawnAt i s.now }

def spawnSlot (i : Nat) : Prog State Unit :=
  resetStat cfg i <|
  atom fun s =>
    if s.forkFails then (s, .ret ())
    else (s.fork cfg i,
      store (fun s' => s'.seat i s.nextPid) (.ret ()))

def killAll : List Nat → Prog State Unit
  | [] => .ret ()
  | i :: is => read fun s =>
    if 0 < s.children i then store (fun s' => s'.kill (s.children i)) (killAll is) else killAll is

/-- `roll_next`. With its last action the caller is through with what it was doing (`finish`). -/
def rollNext (finish : State → State) : Nat → Prog State Unit
  | 0 => store finish (.ret ())
  | rounds + 1 => atom fun s =>
    let i := s.reloadCursor
    let s := { s with reloadCursor := (i + 1) % 18446744073709551616 }
    if cfg.workers ≤ i then (finish s, .ret ())
    else (s, read fun s' =>
      if 0 < s'.children i then store (fun s'' => finish (s''.roll i (s'.children i))) (.ret ())
      else rollNext finish rounds)

/-! ## Reaping -/

def State.rolled (s : State) : State := { s with rolling := false, reaping := false }

/-- The guard against workers that crash as they boot: whether to give up. -/
def State.exited (s : State) (i : Nat) (failed : Bool) : State × Bool :=
  if s.now - s.spawnAt i < BOOT_FAIL_SECS ∧ failed = true then
    if s.now - s.fastfailWindow > FASTFAIL_WINDOW_SECS then
      ({ s with fastfailWindow := s.now, fastfailCount := 1 }, false)
    else
      ({ s with fastfailCount := s.fastfailCount + 1 },
        max (cfg.workers * 3) 10 ≤ s.fastfailCount + 1)
  else ({ s with fastfailCount := 0 }, false)

/-- What the loop does when the worker of a slot has exited. The result is whether there is a master
after that. -/
def reapSlot (i : Nat) (failed : Bool) : Prog State Bool :=
  store (fun s => { s with children := update s.children i 0 }) <|
  read fun s => if s.shutdown then .ret true else
  atom fun s =>
    if (s.exited cfg i failed).2 then
      ({ (s.exited cfg i failed).1 with gaveUp := true },
        (killAll (range MAX_WORKERS)).map fun _ => false)
    else ((s.exited cfg i failed).1,
      read fun s => if s.quarantined i then .ret true else
      (spawnSlot cfg i).bind fun _ => atom fun s =>
        if s.reloadCursor < cfg.workers then
          ({ s with rolling := true }, (rollNext cfg State.rolled cfg.rounds).map fun _ => true)
        else ({ s with reaping := false }, .ret true))

/-- The slots are searched for the process that has exited. -/
def reapSlots (pid : Nat) (failed : Bool) : List Nat → Prog State Unit
  | [] => store (fun s => { s with reaping := false }) (.ret ())
  | i :: is => read fun s =>
    if s.children i = pid then
      (reapSlot cfg i failed).bind fun goesOn => if goesOn then reapSlots pid failed is else .ret ()
    else reapSlots pid failed is

/-- `waitpid`, which finds the worker `k` of those that have exited, and what follows from it. -/
def reap (k : Nat) : Prog State Unit := atom fun s =>
  match s.zombies[k]? with
  | none => (s, .ret ())
  | some (pid, failed) =>
    ({ s with zombies := s.zombies.eraseIdx k, reaping := true },
      reapSlots cfg pid failed (range cfg.workers))

def fillSlots : List Nat → Prog State Unit
  | [] => .ret ()
  | i :: is => read fun s =>
    if s.children i = 0 then read fun s =>
      if s.quarantined i then fillSlots is else (spawnSlot cfg i).bind fun _ => fillSlots is
    else fillSlots is

/-- The refill of empty slots. -/
def fill : Prog State Unit := read fun s =>
  if s.shutdown then .ret () else fillSlots cfg (range cfg.web)

/-! ## The canary -/

/-- The counters of the slots are added up, one load after the other. -/
def addTotals (skipSlot : Nat) : List Nat → Nat × Nat × Nat → Prog State (Nat × Nat × Nat)
  | [], totals => .ret totals
  | i :: is, (r, e, us) =>
    if i = skipSlot then addTotals skipSlot is (r, e, us) else
    read fun s => read fun s' => read fun s'' =>
      addTotals skipSlot is (r + (s.perWorker i).requests.length, e + (s'.perWorker i).errors,
        us + (s''.perWorker i).usSum)

def fleetTotals (skipSlot web : Nat) : Prog State (Nat × Nat × Nat) :=
  if cfg.metrics then addTotals skipSlot (range web) (0, 0, 0) else .ret (0, 0, 0)

/-- `canary_verdict`, and the requests that it counts. -/
def canaryVerdict (alive : Bool) : Prog State (Verdict × List Worker) :=
  if !alive then .ret (.unhealthy .died, []) else
  if !cfg.metrics then .ret (.inconclusive 0 0, []) else
  read fun s => read fun s' => read fun s'' =>
    let requests := (s.perWorker 0).requests
    let cReq := requests.length
    let cErr := (s'.perWorker 0).errors
    let cMean := (s''.perWorker 0).usSum / cReq
    if cReq < cfg.canaryMinRequests then
      .ret (.inconclusive cReq cfg.canaryMinRequests, requests)
    else (fleetTotals cfg 0 cfg.web).bind fun (fReqNow, fErrNow, fUsNow) =>
      read fun s => read fun s' => read fun s'' =>
      let fReq := fReqNow - s.canaryFleetReq
      let fErr := fErrNow - s'.canaryFleetErr
      let fMean := (fUsNow - s''.canaryFleetUs) / max fReq 1
      if cfg.errorRateOver cReq cErr fReq fErr then .ret (.unhealthy .errorRate, requests)
      else if cfg.canaryMinRequests ≤ fReq ∧ 0 < fMean ∧ cfg.latencyOver cMean fMean = true then
        .ret (.unhealthy .latency, requests)
      else .ret (.healthy cReq, requests)

/-- `verify::gate`. -/
def verifyVerdict (elapsedSecs : Nat) : Prog State Gate :=
  read fun s =>
    if s.region.state ≠ .done then
      .ret (if elapsedSecs < cfg.verifyTimeout then .wait else .fail)
    else read fun s =>
      if 0 < s.region.regressed then .ret .fail else read fun s => .ret (.pass s.region.replayed)

/-- The verdict of the replay, if it is time for it. -/
def verifyGate : Prog State Gate :=
  atom fun s => if !s.canaryActive then (s, .ret (.pass [])) else ({ s with deciding := true },
  atom fun s => if s.now < s.canaryDeadline ∨ cfg.verify = false then
      ({ s with deciding := false }, .ret (.pass []))
    else (s,
  atom fun s => if s.children 0 = 0 then ({ s with deciding := false }, .ret (.pass [])) else (s,
  read fun s => verifyVerdict cfg (s.now - (s.canaryDeadline - cfg.canaryWindow)))))

/-- A quiet window with a clean replay is not for want of evidence. -/
def Verdict.withReplay (replayed : List Worker) : Verdict → Verdict
  | .inconclusive requests needed =>
    if replayed = [] then .inconclusive requests needed else .healthy requests
  | v => v

/-- What follows from a verdict. -/
def conclude (j : Judgement) : Prog State Unit :=
  if j.verdict.rolls then
    store (fun s => { s with deciding := false, rolling := true, log := .judged j :: s.log }) <|
    store (fun s => { s with reloadCursor := 1 }) <|
    rollNext cfg State.rolled cfg.rounds
  else
    store (fun s => { s with deciding := false, log := .judged j :: s.log }) <|
    read fun s =>
      if 1 < cfg.web ∧ 0 < s.children 0 then
        store (fun s' => { s' with quarantined := update s'.quarantined 0 true }) <|
        store (fun s' => s'.roll 0 (s.children 0)) (.ret ())
      else .ret ()

/-- The verdict about the reload. -/
def judge (gate : Gate) (reload : Nat) : Prog State Unit :=
  read fun s =>
    match gate, decide (0 < s.children 0) with
    | .fail, true =>
      conclude cfg { reload, verdict := .unhealthy .verification, requests := [], replayed := [] }
    | _, alive => (canaryVerdict cfg alive).bind fun (verdict, requests) =>
      conclude cfg
        { reload, verdict := verdict.withReplay gate.replayed, requests, replayed := gate.replayed }

def canaryGate : Prog State Unit := (verifyGate cfg).bind fun gate =>
  atom fun s => if !s.canaryActive then ({ s with deciding := false }, .ret ()) else
    ({ s with deciding := true },
  atom fun s => if s.now < s.canaryDeadline then ({ s with deciding := false }, .ret ()) else
    match gate with
    | .wait => ({ s with deciding := false }, .ret ())
    | gate => (s, atom fun s => ({ s with canaryActive := false }, judge cfg gate s.active)))

/-! ## Memory -/

/-- The workers in these slots whose memory has reached the cap are sent `SIGTERM`, each once. -/
def recycleSlots (cap : Nat) : List Nat → Prog State Unit
  | [] => .ret ()
  | i :: is => read fun s =>
    let pid := s.children i
    if pid = 0 then recycleSlots cap is else read fun s =>
    if s.recycleSent i = pid then recycleSlots cap is else read fun s =>
    match s.rss pid with
    | none => recycleSlots cap is
    | some rss =>
      if cap ≤ rss then
        store (fun s => { s with recycleSent := update s.recycleSent i pid }) <|
        store (fun s => { s with memRecycleCount := s.memRecycleCount + 1 }) <|
        store (fun s => s.kill pid) (recycleSlots cap is)
      else recycleSlots cap is

def recycleOverRss : Prog State Unit :=
  if cfg.maxRssMb = 0 then .ret ()
  else recycleSlots (cfg.maxRssMb * 1024 * 1024) (range (min cfg.phpWorkers MAX_WORKERS))

/-! ## Reloads -/

/-- A thread returns from `begin_reload`. -/
def State.started (u : Nat) (s : State) : State :=
  { s with starting := s.starting.filter (·.1 ≠ u) }

theorem mem_started {u : Nat} {s : State} {x : Nat × Nat} (hx : x.1 ≠ u) :
    x ∈ (s.started u).starting ↔ x ∈ s.starting := by
  simp [State.started, hx]

theorem notMem_started (u n : Nat) (s : State) : (u, n) ∉ (s.started u).starting := by
  simp [State.started]

/-- What a thread knows in `begin_reload`: the number of its reload. -/
def Starts (u n : Nat) (s : State) : Prop :=
  (u, n) ∈ s.starting ∧ ∀ m, (u, m) ∈ s.starting → m = n

/-- `verify::reset`. -/
def verifyReset (p : Prog State Unit) : Prog State Unit :=
  if cfg.verify then
    store (fun s => { s with region := { s.region with state := .idle } }) <|
    store (fun s => { s with region := { s.region with replayed := [] } }) <|
    store (fun s => { s with region := { s.region with regressed := 0 } }) p
  else p

/-- `begin_reload` with the canary. -/
def canaryReload (u reload : Nat) : Prog State Unit :=
  verifyReset cfg <|
  (fleetTotals cfg 0 cfg.workers).bind fun (fr, fe, fus) =>
  store (fun s => { s with canaryFleetReq := fr }) <|
  store (fun s => { s with canaryFleetErr := fe }) <|
  store (fun s => { s with canaryFleetUs := fus }) <|
  store (fun s => { s with canaryDeadline := s.now + cfg.canaryWindow }) <|
  store (fun s => { s with canaryActive := true, active := max s.active reload }) <|
  store (fun s => { s with quarantined := fun i => if i < cfg.workers then false
                                                   else s.quarantined i }) <|
  atom fun s =>
    if 0 < s.children 0 then
      (s, store (fun s' => (s'.roll 0 (s.children 0)).started u) (.ret ()))
    else (s.started u, .ret ())

/-- `begin_reload`, by the thread `u`. -/
def beginReload (u : Nat) : Prog State Unit := atom fun s =>
  ({ s with
      began := s.began + 1
      starting := (u, s.began + 1) :: s.starting
      log := .began :: s.log },
    if cfg.canary then canaryReload cfg u (s.began + 1)
    else store (fun s => { s with reloadCursor := 0 }) (rollNext cfg (State.started u) cfg.rounds))

def onTerminate : Prog State Unit :=
  store (fun s => { s with shutdown := true }) (killAll (range MAX_WORKERS))

/-! ## The threads and the workers -/

/-- The parts of a round of the loop, and what other threads do. -/
inductive Call where
  | reap (k : Nat)
  | fill
  | gate
  | recycle
  | reload (u : Nat)
  | terminate (u : Nat)

def code : Call → Prog State Unit
  | .reap k => reap cfg k
  | .fill => fill cfg
  | .gate => canaryGate cfg
  | .recycle => recycleOverRss cfg
  | .reload u => beginReload cfg u
  | .terminate _ => onTerminate

/-- The loop is the thread 0, and the others say who they are. -/
def Call.By (t : Nat) : Call → Prop
  | .reap _ | .fill | .gate | .recycle => t = 0
  | .reload u | .terminate u => u = t ∧ t ≠ 0

instance Call.decidableBy (t : Nat) : (c : Call) → Decidable (Call.By t c)
  | .reap _ | .fill | .gate | .recycle => inferInstanceAs (Decidable (t = 0))
  | .reload u | .terminate u => inferInstanceAs (Decidable (u = t ∧ t ≠ 0))

/-- What happens outside the master. -/
inductive Outside where
  /-- Time passes. -/
  | tick (secs : Nat)
  /-- A worker exits. -/
  | exit (pid : Nat) (failed : Bool)
  /-- A worker counts a request, the time it took, an answer with a status of 500 and up. -/
  | request (pid : Nat)
  | took (pid us : Nat)
  | error (pid : Nat)
  /-- A replay begins, has replayed a page, has found a regression, is done. -/
  | replay (pid : Nat)
  | page (pid : Nat)
  | regression (pid : Nat)
  | replayed (pid : Nat)
  /-- The memory of a process changes. -/
  | memory (pid : Nat) (rss : Option Nat)
  /-- Forks fail from now on, or they do not. -/
  | forks (fail : Bool)

def State.worker? (s : State) (pid : Nat) : Option Worker := s.live.find? (·.pid = pid)

/-- `finish`: a worker adds to one of its counters. -/
def State.count (s : State) (pid : Nat) (f : Worker → Stat → Stat) : State :=
  match s.worker? pid with
  | some w => s.setStat cfg w.slot (f w)
  | none => s

/-- Whether the worker runs or not, only counters change. -/
theorem count_elim (P : State → Prop) {s : State} {pid : Nat} {f : Worker → Stat → Stat} (h : P s)
    (hw : ∀ w ∈ s.live, P (s.setStat cfg w.slot (f w))) : P (s.count cfg pid f) := by
  unfold State.count
  split
  next w hfind => exact hw w (mem_of_find?_eq_some hfind)
  next => exact h

/-- A worker that replays requests writes its verdict. -/
def State.replay (s : State) (pid : Nat) (f : Worker → Region → Region) : State :=
  match s.worker? pid with
  | some w => if w.replays then { s with region := f w s.region } else s
  | none => s

/-- What happens outside the master changes the state. -/
def outside : Outside → State → State
  | .tick secs, s => { s with now := s.now + secs }
  | .exit pid failed, s =>
    match s.worker? pid with
    | some _ =>
      { s with live := s.live.filter (·.pid ≠ pid), zombies := s.zombies ++ [(pid, failed)] }
    | none => s
  | .request pid, s => s.count cfg pid fun w st => { st with requests := w :: st.requests }
  | .took pid us, s => s.count cfg pid fun _ st => { st with usSum := st.usSum + us }
  | .error pid, s => s.count cfg pid fun _ st => { st with errors := st.errors + 1 }
  | .replay pid, s => s.replay pid fun _ r => { r with state := .replaying }
  | .page pid, s => s.replay pid fun w r => { r with replayed := w :: r.replayed }
  | .regression pid, s => s.replay pid fun _ r => { r with regressed := r.regressed + 1 }
  | .replayed pid, s => s.replay pid fun _ r => { r with state := .done }
  | .memory pid rss, s => { s with rss := update s.rss pid rss }
  | .forks fail, s => { s with forkFails := fail }

/-- The worker that the master starts with in a slot. -/
def firstWorker (i : Nat) : Worker := { pid := i + 1, slot := i, era := 0, replays := false }

/-- Every slot has a worker. -/
def State.start : State where
  children i := if i < cfg.workers then i + 1 else 0
  shutdown := false
  reloadCursor := 18446744073709551615
  quarantined _ := false
  canaryActive := false
  canaryDeadline := 0
  canaryFleetReq := 0
  canaryFleetErr := 0
  canaryFleetUs := 0
  spawnAt _ := cfg.bootTime
  fastfailWindow := 0
  fastfailCount := 0
  recycleSent _ := 0
  memRecycleCount := 0
  perWorker _ := .zero
  region := { state := .idle, replayed := [], regressed := 0 }
  now := cfg.bootTime
  nextPid := cfg.workers + 1
  forkFails := false
  rss _ := none
  live := (range cfg.workers).map firstWorker
  zombies := []
  signalled := []
  owner := firstWorker
  began := 0
  active := 0
  starting := []
  deciding := false
  rolling := false
  reaping := false
  gaveUp := false
  log := []

abbrev MasterPool := Pool State Call Unit

abbrev MasterEvent := Event Call Outside

def masterExec : MasterPool → MasterEvent → MasterPool := Pool.exec (code cfg) (outside cfg)

def masterAfter (es : List MasterEvent) : MasterPool :=
  Run.runs (masterExec cfg) (Pool.start (.start cfg)) es

/-- The call is made by the thread that makes such calls. -/
def Ordered : MasterEvent → Prop
  | .call t c => c.By t
  | .step _ | .env _ => True

instance decidableOrdered : (e : MasterEvent) → Decidable (Ordered e)
  | .call t c => Call.decidableBy t c
  | .step _ | .env _ => .isTrue trivial

/-- A run of the supervisor: the loop is one thread. -/
def Supervised (es : List MasterEvent) : Prop := ∀ e ∈ es, Ordered e

instance (es : List MasterEvent) : Decidable (Supervised es) :=
  inferInstanceAs (Decidable (∀ e ∈ es, Ordered e))

theorem Supervised.by {es : List MasterEvent} (h : Supervised es) (t : Nat) (c : Call)
    (hc : .call t c ∈ es) : c.By t := h _ hc

/-- A condition on what each event of a run does to the state. -/
def Meets (C : State → State → Prop) (es : List MasterEvent) : Prop :=
  Run.Along (masterExec cfg) (fun P e => C P.shared (masterExec cfg P e).shared)
    (Pool.start (.start cfg)) es

/-! ## Parts that do little -/

section
variable {cfg : Config} {G : State → State → Prop} (hrefl : ∀ s, G s s)

include hrefl

theorem guar_killAll (hkill : ∀ s pid, G s (s.kill pid)) (is : List Nat) : (killAll is).Guar G := by
  induction is with
  | nil => trivial
  | cons i is ih =>
    refine guar_read hrefl fun s => ?_
    split
    · exact guar_store (fun s' => hkill s' _) ih
    · exact ih

theorem guar_onTerminate (hkill : ∀ s pid, G s (s.kill pid))
    (hstop : ∀ s : State, G s { s with shutdown := true }) : onTerminate.Guar G := by
  unfold onTerminate
  generalize range MAX_WORKERS = is
  exact guar_store hstop (guar_killAll hrefl hkill is)

/-- Three loads in a row. -/
theorem guar_read3 {α : Type} {f : State → State → State → Prog State α}
    (h : ∀ s s' s'', (f s s' s'').Guar G) :
    (read fun s => read fun s' => read fun s'' => f s s' s'').Guar G :=
  guar_read hrefl fun s => guar_read hrefl fun s' => guar_read hrefl (h s s')

/-- Adding up the counters is reading only. -/
theorem guar_fleetTotals (skipSlot web : Nat) : (fleetTotals cfg skipSlot web).Guar G := by
  have hadd : ∀ is totals, (addTotals skipSlot is totals).Guar G := by
    intro is
    induction is with
    | nil => exact fun _ => trivial
    | cons i is ih =>
      rintro ⟨r, e, us⟩
      unfold addTotals
      split
      · exact ih _
      · exact guar_read3 hrefl fun _ _ _ => ih _
  unfold fleetTotals
  split
  · exact hadd _ _
  · trivial

omit hrefl in
/-- What the others keep meanwhile holds when the counters are added up. -/
theorem valid_fleetTotals {R : State → State → Prop} {F : State → Prop}
    (hR : ∀ s s', R s s' → F s → F s') (hrefl : ∀ s, G s s) (skipSlot web : Nat) {s : State}
    (hs : F s) : (fleetTotals cfg skipSlot web).Valid R G (fun _ s => F s) s := by
  refine (guar_fleetTotals (G := Eq) Eq.refl skipSlot web).keeps hR ?_ ?_ hs
  · rintro s _ rfl h
    exact h
  · rintro s _ rfl
    exact hrefl s

/-- A verdict is reading only. -/
theorem guar_canaryVerdict (alive : Bool) : (canaryVerdict cfg alive).Guar G := by
  unfold canaryVerdict
  split
  · trivial
  split
  · trivial
  refine guar_read3 hrefl fun s s' s'' => ?_
  dsimp only
  split
  · trivial
  refine (guar_fleetTotals hrefl _ _).bind fun _ => guar_read3 hrefl fun s s' s'' => ?_
  split
  · trivial
  split <;> trivial

/-- Recycling takes down which workers it has signalled, counts them and signals them. -/
theorem guar_recycleOverRss (hsent : ∀ (s : State) sent, G s { s with recycleSent := sent })
    (hcount : ∀ (s : State) n, G s { s with memRecycleCount := n })
    (hkill : ∀ s pid, G s (s.kill pid)) : (recycleOverRss cfg).Guar G := by
  unfold recycleOverRss
  generalize cfg.maxRssMb * 1024 * 1024 = cap
  split
  · trivial
  generalize range (min cfg.phpWorkers MAX_WORKERS) = is
  induction is with
  | nil => trivial
  | cons i is ih =>
    refine guar_read hrefl fun s => ?_
    dsimp only
    split
    · exact ih
    refine guar_read hrefl fun s' => ?_
    split
    · exact ih
    refine guar_read hrefl fun s'' => ?_
    split
    · exact ih
    split
    · exact guar_store (fun _ => hsent _ _) (guar_store (fun _ => hcount _ _)
        (guar_store (fun _ => hkill _ _) ih))
    · exact ih

theorem guar_verifyVerdict (elapsed : Nat) : (verifyVerdict cfg elapsed).Guar G := by
  refine guar_read hrefl fun s => ?_
  split
  · trivial
  refine guar_read hrefl fun s => ?_
  split
  · trivial
  exact guar_read hrefl fun s => trivial

end

theorem exited_cases {cfg : Config} (s : State) (i : Nat) (failed : Bool) :
    ∃ window count, (s.exited cfg i failed).1 =
      { s with fastfailWindow := window, fastfailCount := count } := by
  unfold State.exited
  split
  · split
    · exact ⟨_, _, rfl⟩
    · exact ⟨s.fastfailWindow, _, rfl⟩
  · exact ⟨s.fastfailWindow, _, rfl⟩

/-! ## Processes -/

/-- A process has its id from `fork`, and one that has exited does not run. -/
structure Procs (live : List Worker) (zombies : List (Nat × Bool)) (nextPid : Nat) : Prop where
  pos : 0 < nextPid
  lt : ∀ w ∈ live, 0 < w.pid ∧ w.pid < nextPid
  dead : ∀ z ∈ zombies, z.1 < nextPid ∧ ∀ w ∈ live, w.pid ≠ z.1

namespace Procs

variable {live : List Worker} {zombies : List (Nat × Bool)} {nextPid : Nat} {w : Worker}

theorem fork (h : Procs live zombies nextPid) (hw : w.pid = nextPid) :
    Procs (w :: live) zombies (nextPid + 1) where
  pos := succ_pos _
  lt v hv := by
    rcases mem_cons.1 hv with rfl | hv
    · exact ⟨hw ▸ h.pos, hw ▸ lt_succ_self _⟩
    · exact ⟨(h.lt v hv).1, lt_succ_of_lt (h.lt v hv).2⟩
  dead z hz := by
    refine ⟨lt_succ_of_lt (h.dead z hz).1, fun v hv => ?_⟩
    rcases mem_cons.1 hv with rfl | hv
    · exact hw ▸ (Nat.ne_of_lt (h.dead z hz).1).symm
    · exact (h.dead z hz).2 v hv

theorem exit (h : Procs live zombies nextPid) (hw : w ∈ live) (failed : Bool) :
    Procs (live.filter (·.pid ≠ w.pid)) (zombies ++ [(w.pid, failed)]) nextPid where
  pos := h.pos
  lt v hv := h.lt v (mem_filter.1 hv).1
  dead z hz := by
    rcases mem_append.1 hz with hz | hz
    · exact ⟨(h.dead z hz).1, fun v hv => (h.dead z hz).2 v (mem_filter.1 hv).1⟩
    · cases mem_singleton.1 hz
      exact ⟨(h.lt w hw).2, fun v hv => by simpa using (mem_filter.1 hv).2⟩

theorem reap (h : Procs live zombies nextPid) (k : Nat) : Procs live (zombies.eraseIdx k) nextPid :=
  { h with dead := fun z hz => h.dead z (mem_of_mem_eraseIdx hz) }

end Procs

theorem worker?_eq_some {s : State} {pid : Nat} {w : Worker} (h : s.worker? pid = some w) :
    w ∈ s.live ∧ w.pid = pid :=
  ⟨mem_of_find?_eq_some h, by simpa using find?_some h⟩

/-- A worker that runs and replays requests writes the region, and no other does. -/
theorem replay_elim (P : State → Prop) {s : State} {pid : Nat} {f : Worker → Region → Region}
    (h : P s) (hw : ∀ w ∈ s.live, w.replays = true → P { s with region := f w s.region }) :
    P (s.replay pid f) := by
  unfold State.replay
  split
  next w hfind =>
    split
    next hr => exact hw w (worker?_eq_some hfind).1 hr
    next => exact h
  next => exact h

theorem procs_start (cfg : Config) :
    Procs (State.start cfg).live (State.start cfg).zombies (State.start cfg).nextPid where
  pos := succ_pos _
  lt w hw := by
    obtain ⟨i, hi, rfl⟩ := mem_map.1 hw
    exact ⟨succ_pos _, succ_lt_succ (mem_range.1 hi)⟩
  dead z hz := by cases hz

/-! ## Small fleets -/

/-- Web workers only. -/
def webOnly (web : Nat) (canary verify : Bool) (h : web ≤ MAX_WORKERS) : Config where
  web
  workers := web
  phpWorkers := web
  maxRssMb := 0
  canary
  verify
  metrics := true
  canaryWindow := 5
  canaryMinRequests := 1
  errorRateOver _ _ _ _ := false
  latencyOver _ _ := false
  verifyTimeout := 120
  bootTime := 0
  rounds := web
  web_le := Nat.le_refl web
  workers_le := h

theorem two_le : 2 ≤ MAX_WORKERS := by decide

/-- A call and its first `n` actions. -/
def goes (t : Nat) (c : Call) (n : Nat) : List MasterEvent :=
  .call t c :: replicate n (.step t)

/-- A reload begins, with nothing in between. -/
def reloads (t : Nat) : List MasterEvent := goes t (.reload t) 20

/-- A round of the loop that finds at most one worker exited, with nothing in between. -/
def round : List MasterEvent :=
  goes 0 (.reap 0) 26 ++ goes 0 (.reap 0) 1 ++ goes 0 .fill 8 ++ goes 0 .gate 32

end Askr.Supervisor
