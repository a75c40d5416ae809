import Askr.Broadcast.Ring
import Askr.Pusher.Sign
import Askr.Server.Handle

/-!
# Who gets an event of a private channel

A worker hands the events of the ring to its event streams, by the name of the channel, and to all
its sockets; the task of a socket writes those of the channels that it has subscribed to. A
subscription to a name that starts with `private-` or `presence-` takes a signature for it, and an
event stream is never subscribed to such a name.

The tailer turns the bytes of a channel into a name with `from_utf8_lossy`, so an event of a private
channel may reach sockets that are authorised for another one (`event_misdirected`). All is well for
channels whose names are UTF-8 (`private_kept`).
-/

namespace Askr.Pusher

open Bytes Server List Option

/-- Most channels that a socket subscribes to. -/
def MAX_SUBSCRIPTIONS : Nat := 256

/-- Longest channel name that a socket subscribes to. -/
def MAX_CHANNEL_NAME : Nat := 164

/-- A name that starts with `private-` or `presence-`. -/
def needsAuth (channel : Bytes) : Bool :=
  (ofString "private-").isPrefixOf channel || (ofString "presence-").isPrefixOf channel

/-! ## Messages of a client -/

/-- `event`, `data.channel`, `data.auth` and `data.channel_data` of a message, as far as they are
strings. -/
structure ClientMessage where
  event : Option Bytes
  channel : Option Bytes
  auth : Option Bytes
  channelData : Option Bytes

/-- What a message is answered with. -/
inductive Answer where
  | pong
  | subscriptionError (channel error : Bytes)
  | subscriptionSucceeded (channel data : Bytes)
deriving DecidableEq

/-- The process around the hubs. JSON goes through the parser of client messages and through
`build_event_frame`. -/
structure Realm where
  hmac : Hmac
  json : Bytes → Option ClientMessage
  buildEventFrame : Bytes → Bytes → Bytes
  processId : Nat
  secret : Option Bytes
  pusherEnabled : Bool

/-- Data of an answer to a subscription. -/
def memberPayload (channel : Bytes) : Bytes :=
  if (ofString "presence-").isPrefixOf channel then
    ofString "\x7b\\\"presence\\\":\x7b\\\"count\\\":0,\\\"ids\\\":[],\\\"hash\\\":\x7b\x7d\x7d\x7d"
  else ofString "\x7b\x7d"

/-- The check of the signature: it is made for names that need it, if there is a secret. -/
def authorises (r : Realm) (socketId channel : Bytes) (m : ClientMessage) : Bool :=
  match needsAuth channel, r.secret with
  | true, some secret =>
    m.auth.any (verifySubscription r.hmac secret socketId channel m.channelData)
  | _, _ => true

/-- The branch of `handle_client_message` for `pusher:subscribe`. -/
def subscribe (r : Realm) (m : ClientMessage) (subs : List Bytes) (socketId channel : Bytes) :
    Answer × List Bytes :=
  if channel.length > MAX_CHANNEL_NAME then
    (.subscriptionError channel (ofString "channel name too long"), subs)
  else if subs.length ≥ MAX_SUBSCRIPTIONS && !subs.contains channel then
    (.subscriptionError channel (ofString "too many subscriptions"), subs)
  else if !authorises r socketId channel m then
    (.subscriptionError channel (ofString "auth signature mismatch"), subs)
  else (.subscriptionSucceeded channel (memberPayload channel), subs.insert channel)

def handleClientMessage (r : Realm) (payload : Bytes) (subs : List Bytes) (socketId : Bytes) :
    Option Answer × List Bytes :=
  match r.json payload with
  | none => (none, subs)
  | some m =>
    if m.event = some (ofString "pusher:ping") then (some .pong, subs)
    else if m.event = some (ofString "pusher:subscribe") then
      match m.channel with
      | none => (none, subs)
      | some channel =>
        let (answer, subs') := subscribe r m subs socketId channel
        (some answer, subs')
    else if m.event = some (ofString "pusher:unsubscribe") then
      match m.channel with
      | none => (none, subs)
      | some channel => (none, subs.erase channel)
    else (none, subs)

/-! ## Sockets and event streams -/

/-- An event on its way to a socket. `origin` is the channel that it was published on; the program
has only its name. -/
structure Item where
  channel : Bytes
  frame : Bytes
  origin : Bytes

/-- A task of `serve`: the channels that its socket has subscribed to and the queue to it. The hub
has `registered` it until a send fails. `heard` are the messages of the client, newest first. -/
structure Socket where
  sid : Bytes
  subs : List Bytes
  queue : List Item
  registered : Bool
  running : Bool
  heard : List Bytes

/-- An event stream that the hub knows, with the channel it is under and the queue to it. -/
structure EventStream where
  channel : Bytes
  queue : List Bytes
  reading : Bool

/-- An event that was written to a socket, with what the socket had heard by then. -/
structure Written where
  sid : Bytes
  heard : List Bytes
  origin : Bytes
  frame : Bytes
deriving DecidableEq

/-- An event that was sent to an event stream. -/
structure Streamed where
  channel : Bytes
  origin : Bytes

/-- The hubs of a worker and the sockets and streams behind them. -/
structure Hubs where
  socketSeq : Nat
  sockets : List Socket
  streams : List EventStream
  written : List Written
  streamed : List Streamed

/-- `PusherHub::default` and `SseHub::default`. -/
def Hubs.empty : Hubs :=
  { socketSeq := 1, sockets := [], streams := [], written := [], streamed := [] }

inductive Happening where
  /-- A client connects. -/
  | connect
  /-- The client of a socket sends a message. -/
  | message (i : Nat) (payload : Bytes)
  /-- The task of a socket looks into its queue. -/
  | take (i : Nat)
  /-- A socket is closed, or writing to it fails. -/
  | leave (i : Nat)
  /-- A client asks for an event stream. -/
  | sse (query : Option Bytes)
  /-- An event stream sends what is in its queue. -/
  | flush (j : Nat)
  /-- The client of an event stream goes away. -/
  | hangUp (j : Nat)
  /-- The tailer has read an event. -/
  | event (ch payload : Bytes)
  /-- The sweeps every 15 seconds. -/
  | sweep
  /-- The worker drains. -/
  | closeAll

def socketId (r : Realm) (n : Nat) : Bytes := natBytes r.processId ++ 46 :: natBytes n

/-- `serve`, up to its loop. -/
def Socket.new (sid : Bytes) : Socket :=
  { sid, subs := [], queue := [], registered := true, running := true, heard := [] }

/-- The loop of `serve` has got a text or binary frame. -/
def Socket.hear (r : Realm) (payload : Bytes) (s : Socket) : Socket :=
  if s.running then
    { s with subs := (handleClientMessage r payload s.subs s.sid).2, heard := payload :: s.heard }
  else s

/-- The loop of `serve` has got an item. -/
def Socket.took (s : Socket) : Socket :=
  match s.queue with
  | _ :: queue => { s with queue }
  | [] => { s with running := s.running && s.registered }

/-- What is written for the next item. -/
def Socket.writes (s : Socket) : Option Written :=
  match s.queue with
  | item :: _ =>
    if s.running && s.subs.contains item.channel then
      some { sid := s.sid, heard := s.heard, origin := item.origin, frame := item.frame }
    else none
  | [] => none

/-- `serve` returns. -/
def Socket.stop (s : Socket) : Socket := { s with running := false }

/-- `PusherHub::deliver`, for one socket: one that is gone or has 256 events to take is dropped. -/
def Socket.send (item : Item) (s : Socket) : Socket :=
  if s.registered then
    if s.running && s.queue.length < 256 then { s with queue := s.queue ++ [item] }
    else { s with registered := false }
  else s

/-- `PusherHub::prune`, for one socket. -/
def Socket.prune (s : Socket) : Socket := { s with registered := s.registered && s.running }

/-- `try_send` to an event stream. -/
def EventStream.send (frame : Bytes) (s : EventStream) : Option EventStream :=
  if s.reading && s.queue.length < 128 then some { s with queue := s.queue ++ [frame] } else none

/-- `SseHub::deliver`, for one event stream. -/
def EventStream.deliver (channel frame : Bytes) (s : EventStream) : Option EventStream :=
  if s.channel = channel then s.send frame else some s

/-- `SseBody::poll_frame`. -/
def EventStream.flush (s : EventStream) : EventStream := { s with queue := s.queue.tail }

/-- The client of an event stream is gone. -/
def EventStream.hangUp (s : EventStream) : EventStream := { s with reading := false }

/-- The event streams that get an event. -/
def sentTo (channel frame origin : Bytes) (streams : List EventStream) : List Streamed :=
  (streams.filter fun s => s.channel = channel && (s.send frame).isSome).map
    fun s => { channel := s.channel, origin }

/-- `kv.strip_prefix("channel=")`. -/
def channelParam (kv : Bytes) : Option Bytes :=
  if (ofString "channel=").isPrefixOf kv then some (kv.drop 8) else none

/-- `sse_response`, up to the stream: the channel to subscribe to, or a refusal. -/
def sseResponse (query : Option Bytes) : Except HttpResponse Bytes :=
  let channel := (query.bind fun q => (q.splitOn 38).findSome? channelParam).getD
    (ofString "default")
  if needsAuth channel then
    .error (text 403 (ofString ("askr: private- and presence- channels are only available over " ++
      "the WebSocket path, which authenticates the subscription")))
  else if channel.length > Broadcast.CHAN_MAX then
    .error (text 400 (ofString "askr: channel name too long"))
  else .ok channel

/-- `SseHub::subscribe`. -/
def EventStream.new (channel : Bytes) : EventStream :=
  { channel, queue := [ofString ": connected\n\n"], reading := true }

/-- The tailer hands an event to the hubs. -/
def Hubs.fanOut (r : Realm) (h : Hubs) (ch payload : Bytes) : Hubs :=
  let channel := fromUtf8Lossy ch
  let frame := ofString "data: " ++ fromUtf8Lossy payload ++ ofString "\n\n"
  let item := { channel, frame := r.buildEventFrame channel payload, origin := ch }
  { h with
    streams := h.streams.filterMap (EventStream.deliver channel frame)
    streamed := sentTo channel frame ch h.streams ++ h.streamed
    sockets := if r.pusherEnabled then h.sockets.map (Socket.send item) else h.sockets }

/-- What happens to the hubs changes them. -/
def Hubs.exec (r : Realm) (h : Hubs) : Happening → Hubs
  | .connect =>
    { h with
      socketSeq := (h.socketSeq + 1) % 18446744073709551616
      sockets := h.sockets ++ [.new (socketId r h.socketSeq)] }
  | .message i payload => { h with sockets := h.sockets.modify i (Socket.hear r payload) }
  | .take i =>
    { h with
      sockets := h.sockets.modify i Socket.took
      written := (h.sockets[i]?.bind Socket.writes).toList ++ h.written }
  | .leave i => { h with sockets := h.sockets.modify i Socket.stop }
  | .sse query =>
    match sseResponse query with
    | .ok channel => { h with streams := h.streams ++ [.new channel] }
    | .error _ => h
  | .flush j => { h with streams := h.streams.modify j EventStream.flush }
  | .hangUp j => { h with streams := h.streams.modify j EventStream.hangUp }
  | .event ch payload => h.fanOut r ch payload
  | .sweep =>
    { h with
      streams := h.streams.filterMap (EventStream.send (ofString ": ping\n\n"))
      sockets := h.sockets.map Socket.prune }
  | .closeAll => { h with streams := [] }

def hubsAfter (r : Realm) (es : List Happening) : Hubs := Run.runs (Hubs.exec r) .empty es

/-! ## Authorised sockets -/

/-- The message unsubscribes from the channel. -/
def Unsubscribes (r : Realm) (channel payload : Bytes) : Prop :=
  ∃ m, r.json payload = some m ∧ m.event = some (ofString "pusher:unsubscribe") ∧
    m.channel = some channel

/-- The message subscribes to the channel with a signature for it. -/
def SubscribesSigned (r : Realm) (secret sid channel payload : Bytes) : Prop :=
  ∃ m auth, r.json payload = some m ∧ m.event = some (ofString "pusher:subscribe") ∧
    m.channel = some channel ∧ m.auth = some auth ∧
    verifySubscription r.hmac secret sid channel m.channelData auth = true

/-- A signature for the channel was accepted from the socket, which has not unsubscribed since. -/
def Authorised (r : Realm) (secret sid channel : Bytes) (heard : List Bytes) : Prop :=
  ∃ later payload earlier, heard = later ++ payload :: earlier ∧
    SubscribesSigned r secret sid channel payload ∧ ∀ p ∈ later, ¬ Unsubscribes r channel p

/-- The rule for private channels, for the channels in `Ch`, and the bounds of sockets. -/
structure Kept (r : Realm) (secret : Bytes) (Ch : Set Bytes) (h : Hubs) : Prop where
  written : ∀ w ∈ h.written, w.origin ∈ Ch → needsAuth w.origin = true →
    Authorised r secret w.sid w.origin w.heard
  streamed : ∀ s ∈ h.streamed, needsAuth s.origin = false
  few : ∀ s ∈ h.sockets, s.subs.length ≤ MAX_SUBSCRIPTIONS
  short : ∀ s ∈ h.sockets, ∀ c ∈ s.subs, c.length ≤ MAX_CHANNEL_NAME

variable {r : Realm} {secret sid c payload : Bytes} {subs heard : List Bytes}

theorem Authorised.hear (h : Authorised r secret sid c heard) (hp : ¬ Unsubscribes r c payload) :
    Authorised r secret sid c (payload :: heard) := by
  obtain ⟨later, q, earlier, rfl, hq, hlater⟩ := h
  refine ⟨payload :: later, q, earlier, rfl, hq, fun p hmem => ?_⟩
  rcases mem_cons.1 hmem with rfl | hmem
  · exact hp
  · exact hlater p hmem

theorem SubscribesSigned.authorised (h : SubscribesSigned r secret sid c payload) :
    Authorised r secret sid c (payload :: heard) :=
  ⟨[], payload, heard, rfl, h, fun p hp => by cases hp⟩

theorem needsAuth_iff {channel : Bytes} : needsAuth channel = true ↔
    ofString "private-" <+: channel ∨ ofString "presence-" <+: channel := by
  rw [needsAuth, Bool.or_eq_true, isPrefixOf_iff_prefix, isPrefixOf_iff_prefix]

theorem needsAuth_fromUtf8Lossy {ch : Bytes} (h : needsAuth ch = true) :
    needsAuth (fromUtf8Lossy ch) = true := by
  have hkept : ∀ p s : Bytes, (∀ b ∈ p, b < 0x80) → p <+: fromUtf8Lossy (p ++ s) := by
    intro p s hp
    rw [fromUtf8Lossy_append hp]
    exact prefix_append _ _
  rw [needsAuth_iff] at h ⊢
  rcases h with ⟨s, rfl⟩ | ⟨s, rfl⟩
  · exact .inl (hkept _ s (by decide +kernel))
  · exact .inr (hkept _ s (by decide +kernel))

/-! ## One message -/

theorem subscribe_cases (r : Realm) (m : ClientMessage) (subs : List Bytes) (sid channel : Bytes) :
    (subscribe r m subs sid channel).2 = subs ∨
    channel.length ≤ MAX_CHANNEL_NAME ∧ (channel ∈ subs ∨ subs.length < MAX_SUBSCRIPTIONS) ∧
      authorises r sid channel m = true ∧
      (subscribe r m subs sid channel).2 = subs.insert channel := by
  unfold subscribe
  split
  · exact .inl rfl
  next hlen =>
  split
  · exact .inl rfl
  next hfew =>
  split
  · exact .inl rfl
  next hauth =>
  refine .inr ⟨by omega, ?_, by simpa using hauth, rfl⟩
  by_contra hnot
  push Not at hnot
  exact hfew (by simpa using ⟨hnot.2, hnot.1⟩)

/-- A message leaves the subscriptions as they are, takes the one away that it unsubscribes from, or
adds the one it subscribes to. -/
theorem handleClientMessage_cases (r : Realm) (payload : Bytes) (subs : List Bytes) (sid : Bytes) :
    (handleClientMessage r payload subs sid).2 = subs ∧ (∀ c, ¬ Unsubscribes r c payload) ∨
    (∃ channel, (handleClientMessage r payload subs sid).2 = subs.erase channel ∧
      ∀ c, Unsubscribes r c payload → c = channel) ∨
    ∃ m channel, r.json payload = some m ∧ m.event = some (ofString "pusher:subscribe") ∧
      m.channel = some channel ∧
      (handleClientMessage r payload subs sid).2 = (subscribe r m subs sid channel).2 ∧
      ∀ c, ¬ Unsubscribes r c payload := by
  have hnot : ∀ m, r.json payload = some m → m.event ≠ some (ofString "pusher:unsubscribe") →
      ∀ c, ¬ Unsubscribes r c payload := by
    rintro m hm hne c ⟨m', hm', he, -⟩
    cases hm.symm.trans hm'
    exact hne he
  have hnone : ∀ m, r.json payload = some m → m.channel = none →
      ∀ c, ¬ Unsubscribes r c payload := by
    rintro m hm hne c ⟨m', hm', -, hc⟩
    cases hm.symm.trans hm'
    rw [hne] at hc
    cases hc
  unfold handleClientMessage
  split
  next hm =>
    refine .inl ⟨rfl, fun c ⟨m', hm', _⟩ => ?_⟩
    rw [hm] at hm'
    cases hm'
  next m hm =>
  split
  next he => exact .inl ⟨rfl, hnot m hm (by rw [he]; decide)⟩
  split
  next he =>
    have hno := hnot m hm (by rw [he]; decide +kernel)
    split
    next hc => exact .inl ⟨rfl, hno⟩
    next channel hc => exact .inr (.inr ⟨m, channel, hm, he, hc, rfl, hno⟩)
  split
  next he =>
    split
    next hc => exact .inl ⟨rfl, hnone m hm hc⟩
    next channel hc =>
      refine .inr (.inl ⟨channel, rfl, fun c ⟨m', hm', _, hc'⟩ => ?_⟩)
      cases hm.symm.trans hm'
      exact some.inj (hc'.symm.trans hc)
  next he => exact .inl ⟨rfl, hnot m hm he⟩

theorem SubscribesSigned.of_authorises {m : ClientMessage} (hsecret : r.secret = some secret)
    (hm : r.json payload = some m) (he : m.event = some (ofString "pusher:subscribe"))
    (hc : m.channel = some c) (hauth : authorises r sid c m = true) (hneeds : needsAuth c = true) :
    SubscribesSigned r secret sid c payload := by
  rw [authorises, hneeds, hsecret] at hauth
  cases ha : m.auth with
  | none =>
    rw [ha] at hauth
    cases hauth
  | some auth =>
    rw [ha] at hauth
    exact ⟨m, auth, hm, he, hc, ha, hauth⟩

/-! ## The invariant -/

/-- What a socket keeps: its subscriptions are bounded and those to private channels are signed, and
the items in its queue are under the name of their channel. -/
structure Socket.Ok (r : Realm) (secret : Bytes) (s : Socket) : Prop where
  nodup : s.subs.Nodup
  few : s.subs.length ≤ MAX_SUBSCRIPTIONS
  short : ∀ c ∈ s.subs, c.length ≤ MAX_CHANNEL_NAME
  signed : ∀ c ∈ s.subs, needsAuth c = true → Authorised r secret s.sid c s.heard
  named : ∀ item ∈ s.queue, item.channel = fromUtf8Lossy item.origin

variable {s : Socket}

theorem Socket.ok_new (sid : Bytes) : (Socket.new sid).Ok r secret where
  nodup := .nil
  few := Nat.zero_le _
  short c hc := by cases hc
  signed c hc := by cases hc
  named item hitem := by cases hitem

theorem Socket.Ok.hear (hsecret : r.secret = some secret) (h : s.Ok r secret) (payload : Bytes) :
    (s.hear r payload).Ok r secret := by
  unfold Socket.hear
  split
  case isFalse => exact h
  have hkeeps : (∀ c, ¬ Unsubscribes r c payload) → ∀ c ∈ s.subs, needsAuth c = true →
      Authorised r secret s.sid c (payload :: s.heard) :=
    fun hno c hc hneeds => (h.signed c hc hneeds).hear (hno c)
  rcases handleClientMessage_cases r payload s.subs s.sid with
    ⟨heq, hno⟩ | ⟨channel, heq, hno⟩ | ⟨m, channel, hm, he, hc, heq, hno⟩
  · rw [heq]
    exact { h with signed := hkeeps hno }
  · rw [heq]
    refine ⟨h.nodup.erase _, length_erase_le.trans h.few,
      fun c hc => h.short c (mem_of_mem_erase hc), fun c hc hneeds => ?_, h.named⟩
    obtain ⟨hne, hc⟩ := h.nodup.mem_erase_iff.1 hc
    exact (h.signed c hc hneeds).hear fun hu => hne (hno c hu)
  · rw [heq]
    rcases subscribe_cases r m s.subs s.sid channel with
      heq' | ⟨hlen, hfew, hauth, heq'⟩
    · rw [heq']
      exact { h with signed := hkeeps hno }
    rw [heq']
    refine ⟨h.nodup.insert, ?_, fun c hc' => ?_, fun c hc' hneeds => ?_, h.named⟩
    · by_cases hmem : channel ∈ s.subs
      · rw [insert_of_mem hmem]
        exact h.few
      · rw [insert_of_not_mem hmem]
        exact hfew.resolve_left hmem
    · rcases mem_insert_iff.1 hc' with rfl | hc'
      · exact hlen
      · exact h.short c hc'
    · rcases mem_insert_iff.1 hc' with rfl | hc'
      · exact (SubscribesSigned.of_authorises hsecret hm he hc hauth hneeds).authorised
      · exact hkeeps hno c hc' hneeds

theorem Socket.Ok.took (h : s.Ok r secret) : s.took.Ok r secret := by
  unfold Socket.took
  split
  next item queue hq =>
    exact { h with named := fun i hi => h.named i (by rw [hq]; exact .tail _ hi) }
  next => exact { h with }

theorem Socket.Ok.stop (h : s.Ok r secret) : s.stop.Ok r secret := { h with }

theorem Socket.Ok.prune (h : s.Ok r secret) : s.prune.Ok r secret := { h with }

theorem Socket.Ok.send (h : s.Ok r secret) {item : Item}
    (hitem : item.channel = fromUtf8Lossy item.origin) : (s.send item).Ok r secret := by
  unfold Socket.send
  split
  · split
    · refine { h with named := fun i hi => ?_ }
      rcases mem_append.1 hi with hi | hi
      · exact h.named i hi
      · cases mem_singleton.1 hi
        exact hitem
    · exact { h with }
  · exact h

/-- What a socket writes of a private channel it is authorised for, by its name. -/
theorem Socket.Ok.writes (h : s.Ok r secret) {w : Written} (hw : s.writes = some w)
    (hneeds : needsAuth w.origin = true) :
    Authorised r secret w.sid (fromUtf8Lossy w.origin) w.heard := by
  unfold Socket.writes at hw
  split at hw
  next item queue hq =>
    split at hw
    next hsub =>
      cases hw
      have hname := h.named item (by rw [hq]; exact .head _)
      rw [Bool.and_eq_true, contains_iff_mem] at hsub
      rw [← hname]
      exact h.signed _ hsub.2 (hname ▸ needsAuth_fromUtf8Lossy hneeds)
    next => cases hw
  next => cases hw

theorem needsAuth_of_sseResponse {query : Option Bytes} {channel : Bytes}
    (h : sseResponse query = .ok channel) : needsAuth channel = false := by
  unfold sseResponse at h
  dsimp only at h
  split at h
  · cases h
  next hpublic =>
  split at h
  · cases h
  cases h
  simpa using hpublic

theorem EventStream.send_channel {frame : Bytes} {s s' : EventStream} (h : s.send frame = some s') :
    s'.channel = s.channel := by
  unfold EventStream.send at h
  split at h
  · cases h
    rfl
  · cases h

theorem EventStream.deliver_channel {channel frame : Bytes} {s s' : EventStream}
    (h : s.deliver channel frame = some s') : s'.channel = s.channel := by
  unfold EventStream.deliver at h
  split at h
  · exact send_channel h
  · cases h
    rfl

theorem flush_public (s : EventStream) (h : needsAuth s.channel = false) :
    needsAuth s.flush.channel = false := h

theorem hangUp_public (s : EventStream) (h : needsAuth s.channel = false) :
    needsAuth s.hangUp.channel = false := h

/-- What the hubs keep, whatever happens. -/
structure Hubs.Ok (r : Realm) (secret : Bytes) (h : Hubs) : Prop where
  sockets : ∀ s ∈ h.sockets, s.Ok r secret
  streams : ∀ s ∈ h.streams, needsAuth s.channel = false
  written : ∀ w ∈ h.written, needsAuth w.origin = true →
    Authorised r secret w.sid (fromUtf8Lossy w.origin) w.heard
  streamed : ∀ s ∈ h.streamed, needsAuth s.origin = false

theorem forall_mem_modify {α : Type} {P : α → Prop} {l : List α} {f : α → α} (h : ∀ x ∈ l, P x)
    (hf : ∀ x, P x → P (f x)) (i : Nat) : ∀ x ∈ l.modify i f, P x := by
  intro x hx
  obtain ⟨j, hj⟩ := mem_iff_getElem?.1 hx
  rw [getElem?_modify] at hj
  obtain ⟨y, hy, rfl⟩ := map_eq_some_iff.1 hj
  have hy := h y (mem_of_getElem? hy)
  split
  · exact hf y hy
  · exact hy

theorem forall_mem_concat {α : Type} {P : α → Prop} {l : List α} {x : α} (h : ∀ x ∈ l, P x)
    (hx : P x) : ∀ y ∈ l ++ [x], P y := by
  intro y hy
  rcases mem_append.1 hy with hy | hy
  · exact h y hy
  · cases mem_singleton.1 hy
    exact hx

theorem forall_mem_filterMap {f : EventStream → Option EventStream} {l : List EventStream}
    (h : ∀ s ∈ l, needsAuth s.channel = false)
    (hf : ∀ s s', f s = some s' → s'.channel = s.channel) :
    ∀ s ∈ l.filterMap f, needsAuth s.channel = false := by
  intro s' hs'
  obtain ⟨s, hs, heq⟩ := mem_filterMap.1 hs'
  rw [hf s s' heq]
  exact h s hs

theorem Hubs.Ok.fanOut {h : Hubs} (hok : h.Ok r secret) (ch payload : Bytes) :
    (h.fanOut r ch payload).Ok r secret where
  sockets := by
    intro s hs
    unfold Hubs.fanOut at hs
    dsimp only at hs
    split at hs
    · obtain ⟨s₀, hs₀, rfl⟩ := mem_map.1 hs
      exact (hok.sockets s₀ hs₀).send rfl
    · exact hok.sockets s hs
  streams := forall_mem_filterMap hok.streams fun _ _ => EventStream.deliver_channel
  written := hok.written
  streamed := by
    intro s hs
    rcases mem_append.1 hs with hs | hs
    · obtain ⟨stream, hmem, rfl⟩ := mem_map.1 hs
      obtain ⟨hmem, hsent⟩ := mem_filter.1 hmem
      rw [Bool.and_eq_true, decide_eq_true_eq] at hsent
      have hpublic := hok.streams stream hmem
      rw [hsent.1] at hpublic
      by_contra hneeds
      rw [needsAuth_fromUtf8Lossy (by simpa using hneeds)] at hpublic
      cases hpublic
    · exact hok.streamed s hs

/-- Whatever happens keeps the invariant. -/
theorem Hubs.Ok.exec (hsecret : r.secret = some secret) {h : Hubs} (hok : h.Ok r secret)
    (e : Happening) : (h.exec r e).Ok r secret := by
  cases e with
  | connect =>
    exact { hok with sockets := forall_mem_concat hok.sockets (Socket.ok_new _) }
  | message i payload =>
    exact { hok with
      sockets := forall_mem_modify hok.sockets (fun s hs => hs.hear hsecret payload) i }
  | take i =>
    refine { hok with
      sockets := forall_mem_modify hok.sockets (fun s hs => hs.took) i
      written := fun w hw hneeds => ?_ }
    rcases mem_append.1 hw with hw | hw
    · obtain ⟨s, hs, hw⟩ := bind_eq_some_iff.1 (mem_toList.1 hw)
      exact (hok.sockets s (mem_of_getElem? hs)).writes hw hneeds
    · exact hok.written w hw hneeds
  | leave i =>
    exact { hok with sockets := forall_mem_modify hok.sockets (fun s hs => hs.stop) i }
  | sse query =>
    unfold Hubs.exec
    dsimp only
    split
    next channel hc =>
      exact { hok with
        streams := forall_mem_concat hok.streams (needsAuth_of_sseResponse hc) }
    next => exact hok
  | flush j => exact { hok with streams := forall_mem_modify hok.streams flush_public j }
  | hangUp j => exact { hok with streams := forall_mem_modify hok.streams hangUp_public j }
  | event ch payload => exact hok.fanOut ch payload
  | sweep =>
    refine { hok with
      sockets := fun s hs => ?_
      streams := forall_mem_filterMap hok.streams fun _ _ => EventStream.send_channel }
    obtain ⟨s₀, hs₀, rfl⟩ := mem_map.1 hs
    exact (hok.sockets s₀ hs₀).prune
  | closeAll => exact { hok with streams := fun s hs => by cases hs }

theorem hubsAfter_ok (hsecret : r.secret = some secret) (es : List Happening) :
    (hubsAfter r es).Ok r secret := by
  have hempty : Hubs.empty.Ok r secret := by
    refine ⟨?_, ?_, ?_, ?_⟩
    all_goals
      intro x hx
      cases hx
  exact Run.runs_inv (I := Hubs.Ok r secret) (fun h e hok => hok.exec hsecret e) es hempty

/-- With a secret, an event of a private channel whose name is UTF-8 is written only to sockets that
are authorised for that channel, and no event of a private channel is sent to an event stream.
Sockets have at most 256 subscriptions, to names of at most 164 bytes. -/
theorem private_kept (hsecret : r.secret = some secret) (es : List Happening) :
    Kept r secret {ch | isUtf8 ch = true} (hubsAfter r es) := by
  have hok := hubsAfter_ok hsecret es
  refine ⟨fun w hw hutf8 hneeds => ?_, hok.streamed, fun s hs => (hok.sockets s hs).few,
    fun s hs => (hok.sockets s hs).short⟩
  have hauth := hok.written w hw hneeds
  rwa [fromUtf8Lossy_of_isUtf8 hutf8] at hauth

/-- A process whose clients all send one message, a subscription with the signature for it. -/
def signedRealm (channel : Bytes) : Realm where
  hmac _ message := message
  json _ := some {
    event := some (ofString "pusher:subscribe")
    channel := some channel
    auth := some (issued (fun _ message => message) [] [] (ofString "1.1") channel none)
    channelData := none }
  buildEventFrame _ payload := payload
  processId := 1
  secret := some []
  pusherEnabled := true

/-- A client connects and subscribes, and the tailer reads an event. -/
def subscribedRun (ch : Bytes) : List Happening :=
  [.connect, .message 0 [], .event ch [], .take 0]

/-- A socket gets the event of a channel that it is authorised for. -/
theorem private_kept_written : (hubsAfter (signedRealm (ofString "private-a"))
      (subscribedRun (ofString "private-a"))).written =
      [{ sid := ofString "1.1", heard := [[]], origin := ofString "private-a", frame := [] }] ∧
    Kept (signedRealm (ofString "private-a")) [] {ch | isUtf8 ch = true}
      (hubsAfter (signedRealm (ofString "private-a")) (subscribedRun (ofString "private-a"))) :=
  ⟨by decide +kernel, private_kept rfl _⟩

/-- **Channels that are not UTF-8 come under one name.** A socket with a signature for the channel
`private-` and U+FFFD gets the events of the channel `private-` and the byte 255. -/
theorem event_misdirected : ¬ ∀ r secret es, r.secret = some secret →
    Kept r secret Set.univ (hubsAfter r es) := by
  intro h
  let named := ofString "private-" ++ REPLACEMENT
  let ch := ofString "private-" ++ [255]
  have hwritten : (hubsAfter (signedRealm named) (subscribedRun ch)).written =
      [{ sid := ofString "1.1", heard := [[]], origin := ch, frame := [] }] := by decide +kernel
  have hkept := (h (signedRealm named) [] (subscribedRun ch) rfl).written
  rw [hwritten] at hkept
  have hneeds : needsAuth ch = true := by decide
  obtain ⟨later, payload, earlier, -, ⟨m, auth, hm, -, hc, -⟩, -⟩ :=
    hkept _ (.head _) trivial hneeds
  cases hm
  have hne : some named ≠ some ch := by decide
  exact hne hc

end Askr.Pusher
