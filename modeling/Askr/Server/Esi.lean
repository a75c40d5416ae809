import Askr.Data.Bytes
import Askr.Data.State

/-!
# Edge-side includes

`esi.rs` turns a body into a plan: ranges that are copied, and includes that are to be fetched.
`esi_expand` of `server/esi.rs` carries plans out, pass after pass, with a budget for the includes
and some way to fetch a fragment. What a fetch does to the state of the server is left to the caller
here: `esiExpand` runs over any state, and keeps what every fetch keeps (`keeps_esiExpand`).

The searches are without regard to case. The loops of `plan` and `attr` only go forward in the text,
so they are given its length as fuel.
-/

namespace Askr.Server

open Bytes State List Option Nat

/-! ## Searching -/

/-- `windows(n).position(..)`: where the needle first occurs. -/
def position (needle : Bytes) : Bytes → Option Nat
  | [] => none
  | b :: r =>
    if eqIgnoreAsciiCase ((b :: r).take needle.length) needle then some 0
    else (position needle r).map (· + 1)

def find (hay : Bytes) (start : Nat) (needle : Bytes) : Option Nat :=
  if hay.length ≤ start ∨ needle = [] then none
  else (position needle (hay.drop start)).map (· + start)

def startsWith (hay : Bytes) (at_ : Nat) (needle : Bytes) : Bool :=
  at_ + needle.length ≤ hay.length &&
    eqIgnoreAsciiCase ((hay.drop at_).take needle.length) needle

def isAsciiWhitespace (b : UInt8) : Bool := b == 32 || b == 9 || b == 10 || b == 12 || b == 13

/-- The first position from `j` on that is no white space. -/
def skipSpace (tag : Bytes) (j : Nat) : Nat :=
  j + ((tag.drop j).takeWhile isAsciiWhitespace).length

/-- The quoted value that starts at `j`. -/
def quoted (tag : Bytes) (j : Nat) : Option Bytes :=
  match tag[j]? with
  | none => none
  | some quote =>
    if quote ≠ 34 ∧ quote ≠ 39 then none
    else
      let value := (tag.drop (j + 1)).takeWhile (· ≠ quote)
      if isUtf8 value then some value else none

/-- The loop of `attr`. -/
def attrFrom (tag name : Bytes) : Nat → Nat → Option Bytes
  | 0, _ => none
  | fuel + 1, i =>
    match find tag i name with
    | none => none
    | some pos =>
      let boundary := pos = 0 || (tag[pos - 1]?).any isAsciiWhitespace
      let j := skipSpace tag (pos + name.length)
      if !boundary || tag[j]? ≠ some 61 then attrFrom tag name fuel (pos + name.length)
      else quoted tag (skipSpace tag (j + 1))

/-- `attr`: `name="value"` out of a tag. -/
def attr (tag name : Bytes) : Option Bytes := attrFrom tag name (tag.length + 1) 0

/-! ## Plans -/

inductive Segment where
  | literal (start stop : Nat)
  | incl (src : Bytes)
deriving DecidableEq

def Segment.isIncl : Segment → Bool
  | .incl _ => true
  | .literal .. => false

def pushLiteral (start stop : Nat) : List Segment :=
  if stop > start then [.literal start stop] else []

/-- The loop of `plan`: where the search goes on, and where the pending literal started. -/
def planFrom (body : Bytes) : Nat → Nat → Nat → List Segment
  | 0, _, lit => pushLiteral lit body.length
  | fuel + 1, i, lit =>
    match find body i (ofString "<esi:") with
    | none => pushLiteral lit body.length
    | some opn =>
      if startsWith body opn (ofString "<esi:remove") then
        match find body opn (ofString ">") with
        | none => pushLiteral lit body.length
        | some gt =>
          match find body gt (ofString "</esi:remove>") with
          | none => planFrom body fuel (gt + 1) lit
          | some close =>
            pushLiteral lit opn ++ planFrom body fuel (close + 13) (close + 13)
      else if startsWith body opn (ofString "<esi:include") then
        match find body opn (ofString ">") with
        | none => pushLiteral lit body.length
        | some gt =>
          match attr ((body.drop opn).take (gt - opn)) (ofString "src") with
          | some src => pushLiteral lit opn ++ .incl src :: planFrom body fuel (gt + 1) (gt + 1)
          | none => planFrom body fuel (gt + 1) lit
      else planFrom body fuel (opn + 5) lit

def plan (body : Bytes) : List Segment := planFrom body (body.length + 1) 0 0

def hasTags (body : Bytes) : Bool := (find body 0 (ofString "<esi:")).isSome

def safeSrc (src : Bytes) : Bool :=
  src ≠ [] && [47].isPrefixOf src && !(ofString "//").isPrefixOf src &&
    !(src.tails.any fun t => (ofString "://").isPrefixOf t) && !(src.contains 92) &&
    !((src.splitOn 47).any fun s => s == ofString "..")

/-! ## Expansion -/

def ESI_MAX_PASSES : Nat := 3
def ESI_MAX_INCLUDES : Nat := 32

section
variable {σ : Type} (fetch : Bytes → StateM σ (Option Bytes))

/-- One pass over a plan: what is left of the budget, and the new body. -/
def assemble (body : Bytes) : List Segment → Nat → Bytes → StateM σ (Nat × Bytes)
  | [], budget, out => pure (budget, out)
  | .literal start stop :: r, budget, out =>
    assemble body r budget (out ++ (body.drop start).take (stop - start))
  | .incl _ :: r, 0, out => assemble body r 0 out
  | .incl src :: r, budget + 1, out => do
    let fragment ← fetch src
    assemble body r budget (out ++ fragment.getD [])

/-- The passes of `esi_expand`. -/
def esiPasses : Nat → Nat → Bytes → StateM σ Bytes
  | 0, _, body => pure body
  | passes + 1, budget, body =>
    if !hasTags body || !(plan body).any Segment.isIncl then pure body
    else do
      let (budget, out) ← assemble fetch body (plan body) budget []
      esiPasses passes budget out

def esiExpand (body : Bytes) : StateM σ Bytes :=
  esiPasses fetch ESI_MAX_PASSES ESI_MAX_INCLUDES body

variable {fetch} {I : σ → Prop}

theorem keeps_assemble (hI : ∀ src, Keeps I (fetch src)) (body : Bytes) (segs : List Segment)
    (budget : Nat) (out : Bytes) : Keeps I (assemble fetch body segs budget out) := by
  fun_induction assemble fetch body segs budget out with
  | case1 => exact Keeps.pure _
  | case2 _ _ _ _ _ ih => exact ih
  | case3 _ _ _ ih => exact ih
  | case4 _ _ _ _ ih => exact (hI _).bind ih

/-- **What every fetch keeps, expansion keeps.** -/
theorem keeps_esiExpand (hI : ∀ src, Keeps I (fetch src)) (body : Bytes) :
    Keeps I (esiExpand fetch body) := by
  rw [esiExpand]
  generalize ESI_MAX_PASSES = passes, ESI_MAX_INCLUDES = budget
  induction passes generalizing budget body with
  | zero => exact Keeps.pure _
  | succ passes ih =>
    exact .ite (fun _ => Keeps.pure _) fun _ =>
      (keeps_assemble hI body _ _ _).bind fun p => ih p.2 p.1

end

/-! ## What expansion does to the body -/

theorem esiExpand_of_no_incl {σ : Type} (fetch : Bytes → StateM σ (Option Bytes)) {body : Bytes}
    (h : (plan body).any Segment.isIncl = false) : esiExpand fetch body = pure body := by
  rw [esiExpand, ESI_MAX_PASSES, esiPasses, if_pos (by simp [h])]

/-- The bytes of the literals of a plan. -/
def literalBytes : List Segment → Nat
  | [] => 0
  | .literal start stop :: r => stop - start + literalBytes r
  | .incl _ :: r => literalBytes r

theorem startsWith_iff {hay needle : Bytes} {a : Nat} (hne : needle ≠ []) :
    startsWith hay a needle = true ↔
      eqIgnoreAsciiCase ((hay.drop a).take needle.length) needle = true := by
  simp only [startsWith, Bool.and_eq_true, decide_eq_true_eq, and_iff_right_iff_imp]
  intro h
  have hlen := congrArg length (beq_iff_eq.1 h)
  have hpos := length_pos_iff.2 hne
  simp only [toAsciiLowercase, length_map, length_take, length_drop] at hlen
  omega

/-- The search stops at the first position where the needle is. -/
theorem position_eq_some {needle hay : Bytes} {p : Nat} (h : position needle hay = some p) :
    eqIgnoreAsciiCase ((hay.drop p).take needle.length) needle = true := by
  induction hay generalizing p with
  | nil => cases h
  | cons b r ih =>
    rw [position] at h
    split at h
    · rename_i heq
      cases h
      exact heq
    · obtain ⟨q, hq, rfl⟩ := map_eq_some_iff.1 h
      exact ih hq

theorem position_le {needle hay : Bytes} {q : Nat} (hq : q < hay.length)
    (h : eqIgnoreAsciiCase ((hay.drop q).take needle.length) needle = true) :
    ∃ p ≤ q, position needle hay = some p := by
  induction hay generalizing q with
  | nil => cases hq
  | cons b r ih =>
    rw [position]
    split
    · exact ⟨0, Nat.zero_le _, rfl⟩
    · rename_i hhead
      cases q with
      | zero => exact absurd h hhead
      | succ q =>
        obtain ⟨p, hp, heq⟩ := ih (Nat.lt_of_succ_lt_succ hq) h
        exact ⟨p + 1, Nat.succ_le_succ hp, by rw [heq]; rfl⟩

theorem find_eq_some {hay needle : Bytes} {start p : Nat} (h : find hay start needle = some p) :
    start ≤ p ∧ startsWith hay p needle = true ∧ needle ≠ [] := by
  rw [find] at h
  split at h
  · cases h
  · rename_i hno
    obtain ⟨q, hq, rfl⟩ := map_eq_some_iff.1 h
    have hne := (not_or.1 hno).2
    refine ⟨by omega, (startsWith_iff hne).2 ?_, hne⟩
    rw [Nat.add_comm, ← drop_drop]
    exact position_eq_some hq

theorem find_le {hay needle : Bytes} {start q : Nat} (hne : needle ≠ [])
    (h : startsWith hay q needle = true) (hq : start ≤ q) :
    ∃ p ≤ q, find hay start needle = some p := by
  have hpos := length_pos_iff.2 hne
  have hlong := h
  simp only [startsWith, Bool.and_eq_true, decide_eq_true_eq] at hlong
  obtain ⟨q, rfl⟩ := Nat.exists_eq_add_of_le hq
  have heq := (startsWith_iff hne).1 h
  rw [← drop_drop] at heq
  obtain ⟨p, hp, heq⟩ := position_le (by rw [length_drop]; omega) heq
  rw [find, if_neg (not_or.2 ⟨by omega, hne⟩), heq]
  exact ⟨p + start, by omega, rfl⟩

theorem find_bounds {hay needle : Bytes} {start p : Nat} (h : find hay start needle = some p) :
    start ≤ p ∧ p + needle.length ≤ hay.length ∧ needle ≠ [] := by
  obtain ⟨hle, hs, hne⟩ := find_eq_some h
  simp only [startsWith, Bool.and_eq_true, decide_eq_true_eq] at hs
  exact ⟨hle, hs.1, hne⟩

/-! ## The parts of a body -/

/-- An include tag that is carried out: it goes up to the first `>`, and has a quoted `src`. -/
def IncludeAt (body : Bytes) (start stop : Nat) (src : Bytes) : Prop :=
  ∃ gt, startsWith body start (ofString "<esi:include") = true ∧
    find body start (ofString ">") = some gt ∧ stop = gt + 1 ∧
    attr ((body.drop start).take (gt - start)) (ofString "src") = some src

/-- A block that is dropped: it goes up to the first closing tag behind the `>` of its opening
one. -/
def RemoveAt (body : Bytes) (start stop : Nat) : Prop :=
  ∃ gt close, startsWith body start (ofString "<esi:remove") = true ∧
    find body start (ofString ">") = some gt ∧
    find body gt (ofString "</esi:remove>") = some close ∧ stop = close + 13

/-- One of the two starts here. -/
def Tagged (body : Bytes) (start : Nat) : Prop :=
  (∃ stop src, IncludeAt body start stop src) ∨ ∃ stop, RemoveAt body start stop

def Untagged (body : Bytes) : Prop := ∀ start, ¬ Tagged body start

/-- The position is inside an opening tag, up to its `>`, that is not carried out: an include
without a `src`, or a block that is not closed. -/
def Swallowed (body : Bytes) (lit q : Nat) : Prop :=
  ∃ opn gt, lit ≤ opn ∧ opn < q ∧ q ≤ gt ∧ find body opn (ofString ">") = some gt ∧
    (startsWith body opn (ofString "<esi:remove") = true ∨
      startsWith body opn (ofString "<esi:include") = true) ∧ ¬ Tagged body opn

/-- No tag starts between the positions that is not swallowed. -/
def Passed (body : Bytes) (lit stop : Nat) : Prop :=
  ∀ q, lit ≤ q → q < stop → Tagged body q → Swallowed body lit q

/-- A part of a body, from one position to another. -/
inductive Span where
  | literal (start stop : Nat)
  | incl (start stop : Nat) (src : Bytes)
  | removed (start stop : Nat)

namespace Span

def start : Span → Nat
  | literal a _ | incl a _ _ | removed a _ => a

def stop : Span → Nat
  | literal _ b | incl _ b _ | removed _ b => b

/-- The part is what it says: a literal has no tag in it that is carried out. -/
def Ok (body : Bytes) : Span → Prop
  | literal a b => Passed body a b
  | incl a b src => IncludeAt body a b src
  | removed a b => RemoveAt body a b

def segment : Span → Option Segment
  | literal a b => some (.literal a b)
  | incl _ _ src => some (.incl src)
  | removed _ _ => none

def text (body : Bytes) (p : Span) : Bytes := (body.drop p.start).take (p.stop - p.start)

/-- Its tag, if it is an include. -/
def tag (body : Bytes) : Span → Option Bytes
  | incl a b src => some ((incl a b src).text body)
  | literal _ _ | removed _ _ => none

end Span

/-- The parts follow one another from `n` up to `m`. -/
def Tiles (n : Nat) : List Span → Nat → Prop
  | [], m => n = m
  | p :: ps, m => p.start = n ∧ n < p.stop ∧ Tiles p.stop ps m

/-- The segments carried out with the tags themselves in the place of the fragments. -/
def putBack (body : Bytes) : List Segment → List Bytes → Bytes
  | .literal a b :: segs, tags => (body.drop a).take (b - a) ++ putBack body segs tags
  | .incl _ :: segs, tag :: tags => tag ++ putBack body segs tags
  | _, _ => []

variable {body : Bytes} {ps : List Span} {n m : Nat}

theorem Tiles.le (h : Tiles n ps m) : n ≤ m := by
  induction ps generalizing n with
  | nil => exact Nat.le_of_eq h
  | cons p ps ih =>
    have := ih h.2.2
    have := h.2.1
    omega

theorem Tiles.bounds (h : Tiles n ps m) {p : Span} (hp : p ∈ ps) :
    n ≤ p.start ∧ p.start < p.stop ∧ p.stop ≤ m := by
  induction ps generalizing n with
  | nil => cases hp
  | cons q ps ih =>
    obtain ⟨hstart, hlt, hrest⟩ := h
    rcases mem_cons.1 hp with rfl | hp
    · have := Tiles.le hrest
      omega
    · have := ih hrest hp
      omega

theorem Tiles.pairwise (h : Tiles n ps m) : ps.Pairwise fun p q => p.stop ≤ q.start := by
  induction ps generalizing n with
  | nil => exact .nil
  | cons p ps ih => exact .cons (fun q hq => (h.2.2.bounds hq).1) (ih h.2.2)

theorem Tiles.existsUnique (h : Tiles n ps m) {i : Nat} (hn : n ≤ i) (hm : i < m) :
    ∃! p, p ∈ ps ∧ p.start ≤ i ∧ i < p.stop := by
  induction ps generalizing n with
  | nil =>
    cases h
    omega
  | cons p ps ih =>
    obtain ⟨rfl, -, hrest⟩ := h
    by_cases hi : i < p.stop
    · refine ⟨p, ⟨.head _, hn, hi⟩, fun q ⟨hq, hin⟩ => ?_⟩
      rcases mem_cons.1 hq with rfl | hq
      · rfl
      · have := (hrest.bounds hq).1
        omega
    · obtain ⟨q, ⟨hq, hin⟩, huniq⟩ := ih hrest (Nat.not_lt.1 hi)
      refine ⟨q, ⟨.tail _ hq, hin⟩, fun q' ⟨hq', hin'⟩ => ?_⟩
      rcases mem_cons.1 hq' with rfl | hq'
      exacts [absurd hin'.2 hi, huniq q' ⟨hq', hin'⟩]

theorem Tiles.flatten (h : Tiles n ps body.length) :
    (ps.map (Span.text body)).flatten = body.drop n := by
  induction ps generalizing n with
  | nil => simp [show n = body.length from h]
  | cons p ps ih =>
    obtain ⟨rfl, hlt, hrest⟩ := h
    have hsplit : body.drop p.stop = (body.drop p.start).drop (p.stop - p.start) := by
      rw [drop_drop, Nat.add_sub_cancel' (Nat.le_of_lt hlt)]
    rw [map_cons, flatten_cons, ih hrest, Span.text, hsplit, take_append_drop]

theorem putBack_spans (body : Bytes) (ps : List Span) :
    putBack body (ps.filterMap Span.segment) (ps.filterMap (Span.tag body)) =
      ((ps.filter fun p => p.segment.isSome).map (Span.text body)).flatten := by
  induction ps with
  | nil => rfl
  | cons p ps ih =>
    cases p with
    | literal a b => exact congrArg (_ ++ ·) ih
    | incl a b src => exact congrArg (_ ++ ·) ih
    | removed a b => exact ih

/-- The parts of a body from `n` on, and what is planned for them. -/
structure Cut (body : Bytes) (n : Nat) (ps : List Span) (segs : List Segment) : Prop where
  tiles : Tiles n ps body.length
  ok : ∀ p ∈ ps, p.Ok body
  segs : segs = ps.filterMap Span.segment

theorem Cut.cons {segs : List Segment} {p : Span} (h : Cut body p.stop ps segs)
    (hlt : p.start < p.stop) (hok : p.Ok body) :
    Cut body p.start (p :: ps) (p.segment.toList ++ segs) := by
  refine ⟨⟨rfl, hlt, h.tiles⟩, forall_mem_cons.2 ⟨hok, h.ok⟩, ?_⟩
  rw [filterMap_cons, h.segs]
  cases p.segment <;> rfl

theorem Cut.pushLiteral {segs : List Segment} {lit opn : Nat} (h : Cut body opn ps segs)
    (hle : lit ≤ opn) (hpass : Passed body lit opn) :
    ∃ qs, Cut body lit qs (pushLiteral lit opn ++ segs) := by
  rw [Server.pushLiteral]
  split
  · rename_i hlt
    exact ⟨_, h.cons (p := .literal lit opn) hlt hpass⟩
  · rename_i hge
    obtain rfl : lit = opn := by omega
    exact ⟨ps, h⟩

/-! ## What the search passes over -/

theorem startsWith_append {hay a b : Bytes} {q : Nat} (h : startsWith hay q (a ++ b) = true) :
    startsWith hay q a = true := by
  simp only [startsWith, Bool.and_eq_true, decide_eq_true_eq, length_append, eqIgnoreAsciiCase,
    beq_iff_eq] at h ⊢
  have htake := congrArg (take a.length) h.2
  refine ⟨by omega, ?_⟩
  simpa [toAsciiLowercase, ← map_take, take_take] using htake

/-- The needle is there letter by letter. -/
theorem startsWith_byte {hay needle : Bytes} {a : Nat} (h : startsWith hay a needle = true)
    (j : Nat) (hj : j < needle.length) :
    (hay[a + j]?).map lowerByte = (needle[j]?).map lowerByte := by
  simp only [startsWith, Bool.and_eq_true, eqIgnoreAsciiCase, beq_iff_eq] at h
  have hget := congrArg (·[j]?) h.2
  simpa [toAsciiLowercase, getElem?_take, hj] using hget

theorem Tagged.opens {q : Nat} (h : Tagged body q) :
    startsWith body q (ofString "<esi:") = true ∧
      ∃ gt, find body q (ofString ">") = some gt := by
  obtain ⟨_, _, gt, hs, hgt, -⟩ | ⟨_, gt, _, hs, hgt, -⟩ := h
  · exact ⟨startsWith_append (b := ofString "include") hs, gt, hgt⟩
  · exact ⟨startsWith_append (b := ofString "remove") hs, gt, hgt⟩

theorem Passed.extend {lit i stop : Nat} (h : Passed body lit i)
    (hnew : ∀ q, i ≤ q → q < stop → Tagged body q → Swallowed body lit q) :
    Passed body lit stop := by
  intro q hlit hq htag
  by_cases hi : q < i
  exacts [h q hlit hi htag, hnew q (Nat.not_lt.1 hi) hq htag]

/-- Nothing starts before the next tag. -/
theorem Passed.search {lit i stop : Nat} (h : Passed body lit i)
    (hstop : ∀ p, find body i (ofString "<esi:") = some p → stop ≤ p) : Passed body lit stop := by
  refine h.extend fun q hi hq htag => ?_
  obtain ⟨p, hp, hfind⟩ := find_le (by decide) htag.opens.1 hi
  have := hstop p hfind
  omega

theorem Passed.found {lit i opn : Nat} (h : Passed body lit i)
    (hopn : find body i (ofString "<esi:") = some opn) : Passed body lit opn :=
  h.search fun _ hp => Nat.le_of_eq (Option.some.inj (hopn.symm.trans hp))

/-- Nothing starts behind an opening tag without an end. -/
theorem Passed.endless {lit opn : Nat} (h : Passed body lit opn)
    (hnone : find body opn (ofString ">") = none) (stop : Nat) : Passed body lit stop := by
  refine h.extend fun q hi _ htag => ?_
  obtain ⟨gt, hgt⟩ := htag.opens.2
  obtain ⟨hle, hs, hne⟩ := find_eq_some hgt
  obtain ⟨p, -, hfind⟩ := find_le hne hs (Nat.le_trans hi hle)
  cases hfind.symm.trans hnone

/-- What starts in an opening tag that is not carried out is swallowed. -/
theorem Passed.swallow {lit opn gt : Nat} (h : Passed body lit opn) (hlit : lit ≤ opn)
    (hgt : find body opn (ofString ">") = some gt)
    (hs : startsWith body opn (ofString "<esi:remove") = true ∨
      startsWith body opn (ofString "<esi:include") = true) (hno : ¬ Tagged body opn) :
    Passed body lit (gt + 1) := by
  refine h.extend fun q hi hq htag => ?_
  have hne : opn ≠ q := fun heq => hno (heq ▸ htag)
  exact ⟨opn, gt, hlit, by omega, Nat.le_of_lt_succ hq, hgt, hs, hno⟩

theorem other_letters : ∀ j < 4, ((ofString "<esi:")[j + 1]?).map lowerByte ≠
    ((ofString "<esi:")[0]?).map lowerByte := by
  decide

/-- Nothing starts in the first letters of another tag. -/
theorem Passed.other {lit opn : Nat} (h : Passed body lit opn)
    (hopn : startsWith body opn (ofString "<esi:") = true) (hno : ¬ Tagged body opn) :
    Passed body lit (opn + 5) := by
  refine h.extend fun q hi hq htag => ?_
  have hne : opn ≠ q := fun heq => hno (heq ▸ htag)
  obtain ⟨j, rfl⟩ := Nat.exists_eq_add_of_lt (Nat.lt_of_le_of_ne hi hne)
  have hj : j < 4 := by omega
  have hhead := startsWith_byte htag.opens.1 0 (by decide)
  rw [Nat.add_zero, Nat.add_assoc, startsWith_byte hopn (j + 1) (Nat.succ_lt_succ hj)] at hhead
  exact absurd hhead (other_letters j hj)

theorem tagged_remove {opn : Nat} (hrem : startsWith body opn (ofString "<esi:remove") = true)
    (h : Tagged body opn) : ∃ gt close, find body opn (ofString ">") = some gt ∧
      find body gt (ofString "</esi:remove>") = some close := by
  obtain ⟨_, _, gt, hinc, -⟩ | ⟨_, gt, close, -, hgt, hclose, -⟩ := h
  · have hr := startsWith_byte hrem 5 (by decide)
    have hi := startsWith_byte hinc 5 (by decide)
    exact absurd (hr.symm.trans hi) (by decide)
  · exact ⟨gt, close, hgt, hclose⟩

theorem tagged_include {opn : Nat} (hrem : ¬ startsWith body opn (ofString "<esi:remove") = true)
    (h : Tagged body opn) : startsWith body opn (ofString "<esi:include") = true ∧
      ∃ gt src, find body opn (ofString ">") = some gt ∧
        attr ((body.drop opn).take (gt - opn)) (ofString "src") = some src := by
  obtain ⟨_, src, gt, hinc, hgt, -, hsrc⟩ | ⟨_, gt, close, hs, -⟩ := h
  exacts [⟨hinc, gt, src, hgt, hsrc⟩, absurd hs hrem]

/-- The parts of the body from the pending literal on. What the search has passed over since the
literal started is no tag. -/
theorem exists_cut (body : Bytes) (fuel i lit : Nat) (hlit : lit ≤ i) (hlen : lit ≤ body.length)
    (hpass : Passed body lit i) (hfuel : body.length < i + fuel) :
    ∃ ps, Cut body lit ps (planFrom body fuel i lit) := by
  have hrest : ∀ lit ≤ body.length, Passed body lit body.length →
      ∃ ps, Cut body lit ps (pushLiteral lit body.length) := by
    intro lit hlen hpass
    have hnil : Cut body body.length [] [] := ⟨rfl, by simp, rfl⟩
    simpa using hnil.pushLiteral hlen hpass
  fun_induction planFrom body fuel i lit with
  | case1 => exact hrest _ hlen fun q hq hlt => hpass q hq (by omega)
  | case2 fuel i lit hnone => exact hrest _ hlen (hpass.search (by simp [hnone]))
  | case3 fuel i lit opn hopn _ hgt | case6 fuel i lit opn hopn _ _ hgt =>
    exact hrest _ hlen ((hpass.found hopn).endless hgt _)
  | case4 fuel i lit opn hopn hrem gt hgt hclose ih =>
    have := (find_bounds hopn).1
    have := (find_bounds hgt).1
    refine ih (by omega) hlen ((hpass.found hopn).swallow (by omega) hgt (.inl hrem) ?_) (by omega)
    intro htag
    obtain ⟨gt', close, hgt', hclose'⟩ := tagged_remove hrem htag
    cases hgt.symm.trans hgt'
    cases hclose.symm.trans hclose'
  | case8 fuel i lit opn hopn hrem hinc gt hgt hsrc ih =>
    have := (find_bounds hopn).1
    have := (find_bounds hgt).1
    refine ih (by omega) hlen ((hpass.found hopn).swallow (by omega) hgt (.inr hinc) ?_) (by omega)
    intro htag
    obtain ⟨-, gt', src, hgt', hsrc'⟩ := tagged_include hrem htag
    cases hgt.symm.trans hgt'
    cases hsrc.symm.trans hsrc'
  | case9 fuel i lit opn hopn hrem hinc ih =>
    obtain ⟨hle, hs, -⟩ := find_eq_some hopn
    exact ih (by omega) hlen
      ((hpass.found hopn).other hs fun htag => hinc (tagged_include hrem htag).1) (by omega)
  | case5 fuel i lit opn hopn hrem gt hgt close hclose ih =>
    have hstart := (find_bounds hopn).1
    have hgt' := (find_bounds hgt).1
    obtain ⟨hclose', hend, -⟩ := find_bounds hclose
    have htag : (ofString "</esi:remove>").length = 13 := by decide
    obtain ⟨ps, hps⟩ := ih (Nat.le_refl _) (by omega) (fun q _ _ => by omega) (by omega)
    have hlt : opn < close + 13 := by omega
    have hcut := hps.cons (p := .removed opn (close + 13)) hlt ⟨gt, close, hrem, hgt, hclose, rfl⟩
    exact hcut.pushLiteral (Nat.le_trans hlit hstart) (hpass.found hopn)
  | case7 fuel i lit opn hopn _ hinc gt hgt src hsrc ih =>
    have hstart := (find_bounds hopn).1
    obtain ⟨hgt', hend, -⟩ := find_bounds hgt
    have htag : (ofString ">").length = 1 := by decide
    obtain ⟨ps, hps⟩ := ih (Nat.le_refl _) (by omega) (fun q _ _ => by omega) (by omega)
    have hlt : opn < gt + 1 := by omega
    have hcut := hps.cons (p := .incl opn (gt + 1) src) hlt ⟨gt, hinc, hgt, rfl, hsrc⟩
    exact hcut.pushLiteral (Nat.le_trans hlit hstart) (hpass.found hopn)

theorem cut_plan (body : Bytes) : ∃ ps, Cut body 0 ps (plan body) :=
  exists_cut body _ 0 0 (Nat.le_refl _) (Nat.zero_le _) (fun q _ _ => by omega) (by omega)

/-- The literals of `l` have room in `n` bytes, with a byte to spare if `l` has an include. -/
def Fits (l : List Segment) (n : Nat) : Prop :=
  literalBytes l ≤ n ∧ (l.any Segment.isIncl = true → literalBytes l < n)

theorem Tiles.fits (h : Tiles n ps m) : Fits (ps.filterMap Span.segment) (m - n) := by
  induction ps generalizing n with
  | nil => exact ⟨Nat.zero_le _, fun h => by cases h⟩
  | cons p ps ih =>
    obtain ⟨rfl, hlt, hrest⟩ := h
    have hm := Tiles.le hrest
    have hfits := ih hrest
    cases p with
    | literal a b =>
      simp only [Fits, filterMap_cons, Span.segment, Span.start, Span.stop, literalBytes,
        any_cons, Segment.isIncl, Bool.false_or] at hlt hm hfits ⊢
      exact ⟨by omega, fun h => by have := hfits.2 h; omega⟩
    | incl a b src =>
      simp only [Fits, filterMap_cons, Span.segment, Span.start, Span.stop, literalBytes]
        at hlt hm hfits ⊢
      omega
    | removed a b =>
      simp only [Fits, filterMap_cons, Span.segment, Span.start, Span.stop] at hlt hm hfits ⊢
      exact ⟨by omega, fun h => by have := hfits.2 h; omega⟩

theorem fits_plan (body : Bytes) : Fits (plan body) body.length := by
  obtain ⟨ps, hps⟩ := cut_plan body
  rw [hps.segs]
  exact hps.tiles.fits

theorem find_of_length_le {hay : Bytes} {start : Nat} (h : hay.length ≤ start) (needle : Bytes) :
    find hay start needle = none := if_pos (Or.inl h)

/-- **The fuel of `plan` is enough**: with more of it the plan is the same. -/
theorem planFrom_add_fuel (body : Bytes) (fuel i lit k : Nat) (h : body.length < i + fuel) :
    planFrom body (fuel + k) i lit = planFrom body fuel i lit := by
  fun_induction planFrom body fuel i lit with
  | case1 i lit =>
    cases k with
    | zero => rfl
    | succ k => rw [Nat.zero_add, planFrom, find_of_length_le (by omega)]
  | case2 fuel i lit hnone => rw [succ_add, planFrom, hnone]
  | case3 fuel i lit opn hopn hrem hgt =>
    simp only [succ_add, planFrom, hopn, hrem, hgt, if_true]
  | case4 fuel i lit opn hopn hrem gt hgt hclose ih =>
    have := (find_bounds hopn).1
    have := (find_bounds hgt).1
    simp only [succ_add, planFrom, hopn, hrem, hgt, hclose, if_true]
    exact ih (by omega)
  | case5 fuel i lit opn hopn hrem gt hgt close hclose ih =>
    have := (find_bounds hopn).1
    have := (find_bounds hgt).1
    have := (find_bounds hclose).1
    simp only [succ_add, planFrom, hopn, hrem, hgt, hclose, if_true]
    rw [ih (by omega)]
  | case6 fuel i lit opn hopn hrem hinc hgt =>
    simp only [succ_add, planFrom, hopn, hrem, hinc, hgt, if_true, ite_self]
  | case7 fuel i lit opn hopn hrem hinc gt hgt src hsrc ih =>
    have := (find_bounds hopn).1
    have := (find_bounds hgt).1
    simp only [succ_add, planFrom, hopn, hrem, hinc, hgt, hsrc, if_true]
    rw [ih (by omega)]
    rfl
  | case8 fuel i lit opn hopn hrem hinc gt hgt hsrc ih =>
    have := (find_bounds hopn).1
    have := (find_bounds hgt).1
    simp only [succ_add, planFrom, hopn, hrem, hinc, hgt, hsrc, if_true]
    exact ih (by omega)
  | case9 fuel i lit opn hopn hrem hinc ih =>
    have := (find_bounds hopn).1
    simp only [succ_add, planFrom, hopn, hrem, hinc]
    exact ih (by omega)

theorem planFrom_of_untagged (h : Untagged body) (fuel i lit : Nat) :
    planFrom body fuel i lit = pushLiteral lit body.length := by
  fun_induction planFrom body fuel i lit with
  | case1 | case2 | case3 | case6 => rfl
  | case4 _ _ _ _ _ _ _ _ _ ih | case8 _ _ _ _ _ _ _ _ _ _ ih | case9 _ _ _ _ _ _ _ ih => exact ih
  | case5 _ _ _ _ _ hstart gt hgt close hclose =>
    exact absurd (.inr ⟨_, gt, close, hstart, hgt, hclose, rfl⟩) (h _)
  | case7 _ _ _ _ _ _ hstart gt hgt src hsrc =>
    exact absurd (.inl ⟨_, src, gt, hstart, hgt, rfl, hsrc⟩) (h _)

/-- **A plan loses and invents nothing.** It is found whatever the fuel. The body falls into parts,
one after the other, which are literals without tags, include tags and blocks to drop; every byte is
in one of them. The plan has the literals and the includes in their order, and with the tags put
back they are the body without the blocks. A body with something in it and without tags is one
literal. -/
theorem plan_partition (body : Bytes) : (∀ k, planFrom body (body.length + 1 + k) 0 0 = plan body) ∧
    (∃ ps : List Span, plan body = ps.filterMap Span.segment ∧
      (∀ p ∈ ps, p.Ok body ∧ p.start < p.stop ∧ p.stop ≤ body.length) ∧
      (ps.Pairwise fun p q => p.stop ≤ q.start) ∧
      (∀ i < body.length, ∃! p, p ∈ ps ∧ p.start ≤ i ∧ i < p.stop) ∧
      (ps.map (Span.text body)).flatten = body ∧
      putBack body (plan body) (ps.filterMap (Span.tag body)) =
        ((ps.filter fun p => p.segment.isSome).map (Span.text body)).flatten) ∧
    (Untagged body → body ≠ [] → plan body = [.literal 0 body.length]) := by
  refine ⟨fun k => planFrom_add_fuel body _ 0 0 k (by omega), ?_, fun huntagged hne => ?_⟩
  · obtain ⟨ps, hps⟩ := cut_plan body
    refine ⟨ps, hps.segs, fun p hp => ⟨hps.ok p hp, (hps.tiles.bounds hp).2⟩, hps.tiles.pairwise,
      fun i hi => hps.tiles.existsUnique (Nat.zero_le i) hi, hps.tiles.flatten, ?_⟩
    rw [hps.segs]
    exact putBack_spans body ps
  · have hlen := length_pos_iff.2 hne
    rw [plan, planFrom_of_untagged huntagged, pushLiteral, if_pos hlen]

theorem untagged_of_short (h : body.length < 5) : Untagged body := fun _ htag => by
  have hs := htag.opens.1
  simp only [startsWith, Bool.and_eq_true, decide_eq_true_eq] at hs
  exact absurd hs.1 (by simp [show (ofString "<esi:").length = 5 from rfl]; omega)

/-- A page with an include, and a block to drop for those that know includes. -/
def page : Bytes :=
  ofString "a<esi:include src='/x'/>b<esi:remove>c</esi:remove>d<esi:remove>"

theorem plan_partition_page :
    (∃ ps : List Span, [Segment.literal 0 1, .incl (ofString "/x"), .literal 24 25,
        .literal 51 64] = ps.filterMap Span.segment ∧
      (∀ p ∈ ps, p.Ok page) ∧ (ps.map (Span.text page)).flatten = page) ∧
    plan [60] = [.literal 0 1] := by
  have hplan : plan page =
      [.literal 0 1, .incl (ofString "/x"), .literal 24 25, .literal 51 64] := by decide +kernel
  obtain ⟨ps, hps, hok, -, -, htext, -⟩ := (plan_partition page).2.1
  exact ⟨⟨ps, hplan ▸ hps, fun p hp => (hok p hp).1, htext⟩,
    (plan_partition [60]).2.2 (untagged_of_short (by decide)) (by decide)⟩

/-- **An empty body is no literal**: its plan has no segment. -/
theorem plan_empty : ¬ ∀ body, Untagged body → plan body = [.literal 0 body.length] := fun h =>
  absurd (h [] (untagged_of_short (by decide))) (by decide)

theorem hasTags_of_incl {body : Bytes} (h : (plan body).any Segment.isIncl = true) :
    hasTags body = true := by
  rw [hasTags]
  by_contra hno
  rw [Bool.not_eq_true, isSome_eq_false_iff, isNone_iff_eq_none] at hno
  rw [plan, planFrom, hno] at h
  simp only [pushLiteral] at h
  split at h <;> cases h

section
variable {σ : Type} {fetch : Bytes → StateM σ (Option Bytes)}

theorem assemble_length_le (hfail : ∀ src, Yields (· = none) (fetch src)) (body : Bytes)
    (segs : List Segment) (budget : Nat) (out : Bytes) :
    Yields (fun p => p.2.length ≤ out.length + literalBytes segs)
      (assemble fetch body segs budget out) := by
  fun_induction assemble fetch body segs budget out with
  | case1 => exact .pure (Nat.le_refl _)
  | case2 budget start stop segs out ih =>
    refine ih.mono fun p hp => ?_
    rw [length_append, length_take] at hp
    rw [literalBytes]
    omega
  | case3 _ _ _ ih => exact ih
  | case4 _ _ _ _ ih =>
    refine (hfail _).bind fun fragment hnone => ?_
    have := ih fragment
    rwa [hnone, getD_none, append_nil] at this ⊢

theorem esiPasses_length_le (hfail : ∀ src, Yields (· = none) (fetch src)) (passes budget : Nat)
    (body : Bytes) :
    Yields (fun out => out.length ≤ body.length) (esiPasses fetch passes budget body) := by
  induction passes generalizing budget body with
  | zero => exact .pure (Nat.le_refl _)
  | succ passes ih =>
    rw [esiPasses]
    split
    · exact .pure (Nat.le_refl _)
    · refine (assemble_length_le hfail body _ _ _).bind fun p hp => ?_
      refine (ih p.1 p.2).mono fun out hout => ?_
      have := (fits_plan body).1
      rw [length_nil, Nat.zero_add] at hp
      omega

/-- **An include never stays in the page it is assembled into**: where the fragments cannot be had,
the page gets shorter. -/
theorem esiExpand_length_lt (hfail : ∀ src, Yields (· = none) (fetch src)) {body : Bytes}
    (hincl : (plan body).any Segment.isIncl = true) :
    Yields (fun out => out.length < body.length) (esiExpand fetch body) := by
  rw [esiExpand, ESI_MAX_PASSES, esiPasses, if_neg (by simp [hasTags_of_incl hincl, hincl])]
  refine (assemble_length_le hfail body _ _ _).bind fun p hp => ?_
  refine (esiPasses_length_le hfail _ p.1 p.2).mono fun out hout => ?_
  have := (fits_plan body).2 hincl
  rw [length_nil, Nat.zero_add] at hp
  omega

end

end Askr.Server
