import Askr.Data.Sse
import Askr.Pusher.Channels

/-!
# What an event stream says

The tailer wraps a payload as `data: `, the payload and an empty line, and the hub puts that into
the queue of every event stream of the channel. A client reads one event with the payload as its
data, as long as the payload is one line (`stream_decoded`). A payload with a line break in it comes
out cut off or in pieces (`payload_cut`): a line after the first is no `data` field.

A stream whose client does not read is dropped by the hub once 128 messages wait for it.
-/

namespace Askr.Pusher

open Bytes List

/-- What happens to an event stream. -/
inductive Turn where
  /-- The tailer has read an event. -/
  | event (ch payload : Bytes)
  /-- The keep-alive every 15 seconds. -/
  | ping
  /-- A message is sent to the client. -/
  | flush

/-- An event stream, and what its client has been sent. -/
structure Feed where
  stream : EventStream
  sent : Bytes

/-- `format!("data: {}\n\n", ..)`. -/
def dataFrame (payload : Bytes) : Bytes :=
  ofString "data: " ++ fromUtf8Lossy payload ++ ofString "\n\n"

/-- A turn of a stream that the hub knows. It is forgotten when a send fails. -/
def Feed.turn (f : Feed) : Turn → Option Feed
  | .event ch payload =>
    (f.stream.deliver (fromUtf8Lossy ch) (dataFrame payload)).map fun s => { f with stream := s }
  | .ping => (f.stream.send (ofString ": ping\n\n")).map fun s => { f with stream := s }
  | .flush => some { stream := f.stream.flush, sent := f.sent ++ f.stream.queue.headD [] }

/-- The turns of a new stream of the channel that is never dropped. -/
def feed (channel : Bytes) (ts : List Turn) : Option Feed :=
  ts.foldlM Feed.turn { stream := .new channel, sent := [] }

/-- What a client is sent in the end. -/
def Feed.bytes (f : Feed) : Bytes := f.sent ++ f.stream.queue.flatten

/-- The payload of a turn, if it is an event of the channel. -/
def Turn.payload (channel : Bytes) : Turn → Option Bytes
  | .event ch payload => if fromUtf8Lossy ch = channel then some payload else none
  | .ping | .flush => none

/-- The payloads on the channel, in order. -/
def published (channel : Bytes) (ts : List Turn) : List Bytes := ts.filterMap (Turn.payload channel)

def OneLine (payload : Bytes) : Prop := ∀ b ∈ payload, b ≠ 10 ∧ b ≠ 13

instance (payload : Bytes) : Decidable (OneLine payload) :=
  inferInstanceAs (Decidable (∀ b ∈ payload, _))

/-- A stream that has told its client of the payloads `ps`, and nothing else. -/
structure Feed.Tells (channel : Bytes) (f : Feed) (ps : List Bytes) : Prop where
  channel : f.stream.channel = channel
  whole : Sse.Whole f.bytes ps
  opened : f.bytes.head? = some 58

variable {channel : Bytes} {f f' : Feed} {ps : List Bytes}

theorem Feed.Tells.send (h : f.Tells channel ps) {frame : Bytes} {qs : List Bytes}
    (hw : Sse.Whole frame qs)
    (hf : (f.stream.send frame).map (fun s => { f with stream := s }) = some f') :
    f'.Tells channel (ps ++ qs) := by
  obtain ⟨s, hs, rfl⟩ := Option.map_eq_some_iff.1 hf
  unfold EventStream.send at hs
  split at hs
  · cases hs
    have hbytes : Feed.bytes { f with stream := { f.stream with
        queue := f.stream.queue ++ [frame] } } = f.bytes ++ frame := by simp [Feed.bytes]
    refine ⟨h.channel, hbytes ▸ h.whole.append hw, ?_⟩
    rw [hbytes, head?_append, h.opened]
    rfl
  · cases hs

/-- **One turn**: the client is told of the payload of an event of the channel. -/
theorem Feed.Tells.turn (h : f.Tells channel ps) {t : Turn} (hf : f.turn t = some f')
    (hline : ∀ p ∈ t.payload channel, isUtf8 p = true ∧ OneLine p) :
    f'.Tells channel (ps ++ (t.payload channel).toList) := by
  cases t with
  | event ch payload =>
    rw [Feed.turn, EventStream.deliver, h.channel] at hf
    rw [Turn.payload] at hline ⊢
    by_cases hch : fromUtf8Lossy ch = channel
    · rw [if_pos hch.symm] at hf
      rw [if_pos hch] at hline ⊢
      obtain ⟨hutf8, hone⟩ := hline payload rfl
      refine h.send ?_ hf
      rw [dataFrame, fromUtf8Lossy_of_isUtf8 hutf8]
      exact Sse.whole_data hone
    · rw [if_neg (Ne.symm hch)] at hf
      rw [if_neg hch]
      cases hf
      simpa using h
  | ping =>
    have hping : Sse.Whole (ofString ": ping\n\n") [] :=
      Sse.whole_comment (l := ofString " ping") (by decide +kernel)
    exact h.send hping hf
  | flush =>
    cases hf
    have hbytes : Feed.bytes ⟨f.stream.flush, f.sent ++ f.stream.queue.headD []⟩ = f.bytes := by
      cases hq : f.stream.queue <;> simp [Feed.bytes, EventStream.flush, hq]
    refine ⟨h.channel, ?_, ?_⟩
    · rw [hbytes]
      simpa [Turn.payload] using h.whole
    · rw [hbytes, h.opened]

/-- **A client is told what was published**, if every payload is one line. -/
theorem stream_decoded {ts : List Turn} (hfeed : feed channel ts = some f)
    (hline : ∀ p ∈ published channel ts, isUtf8 p = true ∧ OneLine p) :
    Sse.events f.bytes = published channel ts := by
  have hrun : ∀ (ts : List Turn) (f₀ : Feed) (ps : List Bytes), f₀.Tells channel ps →
      ts.foldlM Feed.turn f₀ = some f →
      (∀ p ∈ published channel ts, isUtf8 p = true ∧ OneLine p) →
      f.Tells channel (ps ++ published channel ts) := by
    intro ts
    induction ts with
    | nil =>
      intro f₀ ps h hf _
      cases hf
      simpa [published] using h
    | cons t ts ih =>
      intro f₀ ps h hf hline
      have hcons : published channel (t :: ts) =
          (t.payload channel).toList ++ published channel ts := by
        rw [published, filterMap_cons]
        cases t.payload channel <;> rfl
      rw [hcons] at hline ⊢
      obtain ⟨f₁, hf₁, hf⟩ := Option.bind_eq_some_iff.1 hf
      have h₁ := h.turn hf₁ fun p hp => hline p (mem_append_left _ (by simpa using hp))
      rw [← append_assoc]
      exact ih f₁ _ h₁ hf fun p hp => hline p (mem_append_right _ hp)
  have hnew : Feed.Tells channel { stream := .new channel, sent := [] } [] := by
    refine ⟨rfl, ?_, rfl⟩
    exact Sse.whole_comment (l := ofString " connected") (by decide +kernel)
  have hend := hrun ts _ [] hnew hfeed hline
  exact hend.whole.events (by rw [hend.opened]; decide)

theorem stream_decoded_twice :
    ∃ f, feed [97] [.event [97] [120], .flush, .ping, .event [98] [121], .event [97] []] = some f ∧
      Sse.events f.bytes = [[120], []] :=
  ⟨_, rfl, @stream_decoded [97] _ [.event [97] [120], .flush, .ping, .event [98] [121],
    .event [97] []] rfl (by decide +kernel)⟩

/-- **A payload is cut off** at its first line break. -/
theorem payload_cut : ¬ ∀ channel ts f, feed channel ts = some f →
    (∀ p ∈ published channel ts, isUtf8 p = true) → Sse.events f.bytes = published channel ts := by
  intro h
  have hcut := h [97] [.event [97] (ofString "x\ny")] _ rfl (by decide)
  exact absurd hcut (by decide)

end Askr.Pusher
