import Askr.Data.Json
import Askr.Pusher.Channels

/-!
# What a trigger is told

A trigger is answered with `{}` whatever became of its events. `publish` refuses long names and long
payloads, and what it returns is not looked at: `trigger_published` says for which channels it
returned true, and that these events are in the ring; the others are lost (`trigger_lost`).
-/

namespace Askr.Pusher

open Bytes Conc Prog Broadcast List

def triggerChannels (v : Json) : List Bytes :=
  ((v.get (ofString "channel")).bind Json.asStr).toList ++
    (((v.get (ofString "channels")).bind Json.asArray).getD []).filterMap Json.asStr

/-- The event that a trigger publishes on them. -/
def triggerEvent (d : Serde) (v : Json) : Bytes :=
  let name := ((v.get (ofString "name")).bind Json.asStr).getD (ofString "message")
  d.toString (.obj [(ofString "data", (v.get (ofString "data")).getD .null),
    (ofString "event", .str name)])

/-- The loop over the channels, with what `publish` returns for each. -/
def publishAll (inner : Bytes) : List Bytes → Prog Ring (List (Bytes × Bool))
  | [] => .ret []
  | ch :: chs => (publish (ch, inner)).bind fun seq =>
    (publishAll inner chs).map ((ch, seq.isSome) :: ·)

/-- `trigger`: the body of the answer, and what `publish` returned on the way to it, which the code
drops. -/
def trigger (d : Serde) (body : Bytes) : Prog Ring (Bytes × List (Bytes × Bool)) :=
  match d.fromSlice body with
  | none => .ret (ofString "\x7b\x7d", [])
  | some v =>
    (publishAll (triggerEvent d v) (triggerChannels v)).map (ofString "\x7b\x7d", ·)

/-- Events stay committed. -/
def Keeps (r r' : Ring) : Prop := r.log ⊆ r'.log

/-- The event has a place in a slot. -/
def Fits (e : Delivered) : Prop := e.1.length ≤ CHAN_MAX ∧ e.2.length ≤ PAYLOAD_MAX
deriving Decidable

def Published (e : Delivered) (r : Ring) : Prop := ∃ seq, (seq, e) ∈ r.log

theorem storing_published (n : Nat) (e : Delivered) (ws : List (Field × Nat)) (r : Ring) :
    (storing n e ws).Valid Keeps Keeps (fun seq r' => seq.isSome ∧ Published e r') r := by
  induction ws generalizing r with
  | nil => exact valid_atom fun r' _ => ⟨subset_cons_self _ _, rfl, n, .head _⟩
  | cons w ws ih => exact valid_atom fun r' _ => ⟨List.Subset.refl _, ih _⟩

/-- `publish` returns true for the events that fit, and puts them in the ring. -/
theorem publish_published (e : Delivered) (r : Ring) : (publish e).Valid Keeps Keeps
    (fun seq r' => (seq.isSome ↔ Fits e) ∧ (Fits e → Published e r')) r := by
  unfold publish
  split
  next hlong =>
    have hno : ¬ Fits e := fun hfits => hlong.elim hfits.1.not_gt hfits.2.not_gt
    exact ⟨by simp [hno], fun hfits => absurd hfits hno⟩
  next hshort =>
    have hfits : Fits e := by simpa [Fits] using hshort
    exact valid_atom fun r' _ => ⟨List.Subset.refl _, valid_atom fun r'' _ =>
      ⟨List.Subset.refl _, (storing_published _ e _ _).post fun _ _ h =>
        ⟨iff_of_true h.1 hfits, fun _ => h.2⟩⟩⟩

/-- What became of the event on the channels, by what `publish` returned for them. -/
structure Outcome (inner : Bytes) (chs : List Bytes) (told : List (Bytes × Bool)) (r : Ring) :
    Prop where
  channels : told.map (·.1) = chs
  fits : ∀ x ∈ told, x.2 = true ↔ Fits (x.1, inner)
  published : ∀ x ∈ told, x.2 = true → Published (x.1, inner) r

theorem publishAll_outcome (inner : Bytes) (chs : List Bytes) (r : Ring) :
    (publishAll inner chs).Valid Keeps Keeps (Outcome inner chs) r := by
  induction chs generalizing r with
  | nil => exact ⟨rfl, by simp, by simp⟩
  | cons ch chs ih =>
    have hkeep : ∀ r r' : Ring, Keeps r r' → (Fits (ch, inner) → Published (ch, inner) r) →
        Fits (ch, inner) → Published (ch, inner) r' :=
      fun _ _ hk h hfits => (h hfits).imp fun seq hseq => hk hseq
    refine Valid.bind ((publish_published (ch, inner) r).post fun seq r' hch => ?_)
    refine Valid.map _ (((ih r').frame hkeep hkeep hch.2).post fun told r'' h => ?_)
    obtain ⟨hall, hpub⟩ := h
    exact ⟨by rw [map_cons, hall.channels], forall_mem_cons.2 ⟨hch.1, hall.fits⟩,
      forall_mem_cons.2 ⟨fun htrue => hpub (hch.1.1 htrue), hall.published⟩⟩

/-- **A trigger is answered with success in every case; its event was put in the ring for the listed
channels exactly if it fits on each**, and it is there for those on which it fits when the trigger
returns, with whatever others publish meanwhile. -/
theorem trigger_published {d : Serde} {body : Bytes} {v : Json} (hv : d.fromSlice body = some v)
    (r : Ring) : (trigger d body).Valid Keeps Keeps (fun out r' => out.1 = ofString "\x7b\x7d" ∧
      out.2.map (·.1) = triggerChannels v ∧
      ((∀ x ∈ out.2, x.2 = true) ↔ ∀ ch ∈ triggerChannels v, Fits (ch, triggerEvent d v)) ∧
      (∀ x ∈ out.2, x.2 = true → Published (x.1, triggerEvent d v) r')) r := by
  unfold trigger
  rw [hv]
  refine Valid.map _ ((publishAll_outcome _ _ r).post fun told r' h => ?_)
  refine ⟨rfl, h.channels, ?_, h.published⟩
  rw [← h.channels, forall_mem_map]
  exact forall₂_congr h.fits

/-- A library that reads every text as a trigger of the event `e` on two channels, and prints short
texts. -/
def library (ch : Bytes) : Serde where
  fromSlice _ := some (.obj [(ofString "channel", .str (ofString "a")),
    (ofString "channels", .arr [.str ch, .null]), (ofString "name", .str (ofString "e"))])
  toString _ := ofString "e"

theorem trigger_published_run :
    let out := (trigger (library (ofString "b")) []).run .zeroed
    (∀ x ∈ out.2.2, x.2 = true) ∧ out.2.2 = [(ofString "a", true), (ofString "b", true)] ∧
      ∀ x ∈ out.2.2, x.2 = true → Published (x.1, ofString "e") out.1 := by
  have hv : (library (ofString "b")).fromSlice [] = some _ := rfl
  have h := Valid.run (R := Keeps) (fun r => List.Subset.refl r.log) (trigger_published hv .zeroed)
  exact ⟨h.2.2.1.2 (by decide), by decide +kernel, h.2.2.2⟩

/-- **A trigger is answered alike when its event is lost**: one of the names has 65 bytes. -/
theorem trigger_lost : let out := (trigger (library (replicate 65 97)) []).run .zeroed
    out.2 = (ofString "\x7b\x7d", [(ofString "a", true), (replicate 65 97, false)]) ∧
      out.1.log.map (·.2.1) = [ofString "a"] := by
  decide +kernel

end Askr.Pusher
