import Askr.Data.Bytes

/-!
# Server-sent events

How a client reads an event stream. The text is cut into lines at CR LF, at LF and at CR. A line is
a field, a name and a value with a colon between them; without a name it is a comment. An empty line
ends an event. An event here is its data: the values of the fields named `data`, one to a line. What
comes behind the last empty line is no event yet.

`Whole` is how a stream is put together from the texts of single events.
-/

namespace Sse

open Bytes List

/-- The lines that end in a text. In front of it come the bytes `line` of its first line, and an LF
at its start belongs to the end of the line before if there was a CR (`cr`). -/
def lines (cr : Bool) (line : Bytes) : Bytes → List Bytes
  | [] => []
  | b :: r =>
    if cr && b = 10 then lines false line r
    else if b = 10 ∨ b = 13 then line :: lines (b = 13) [] r
    else lines false (line ++ [b]) r

/-- The data of the event that is being read, and the events before it. -/
structure Reader where
  data : Bytes
  events : List Bytes

/-- The value of a field: a space behind the colon is not part of it. -/
def value (line : Bytes) : Bytes :=
  let v := (line.dropWhile (· ≠ 58)).drop 1
  if v.head? = some 32 then v.tail else v

def Reader.read (s : Reader) (line : Bytes) : Reader :=
  if line = [] then
    if s.data = [] then s else { data := [], events := s.events ++ [s.data.dropLast] }
  else if line.takeWhile (· ≠ 58) = ofString "data" then
    { s with data := s.data ++ (value line ++ [10]) }
  else s

/-- A byte order mark at the start of the stream is skipped. -/
def dropMark (t : Bytes) : Bytes := if [0xEF, 0xBB, 0xBF].isPrefixOf t then t.drop 3 else t

def events (t : Bytes) : List Bytes :=
  ((lines false [] (dropMark t)).foldl Reader.read { data := [], events := [] }).events

/-- A text that stands by itself in a stream, with the events in it. -/
def Whole (t : Bytes) (es : List Bytes) : Prop :=
  ∀ r before, (lines false [] (t ++ r)).foldl Reader.read { data := [], events := before } =
    (lines false [] r).foldl Reader.read { data := [], events := before ++ es }

variable {t u l : Bytes} {es fs : List Bytes}

theorem lines_append (line : Bytes) (h : ∀ b ∈ l, b ≠ 10 ∧ b ≠ 13) (r : Bytes) :
    lines false line (l ++ 10 :: r) = (line ++ l) :: lines false [] r := by
  induction l generalizing line with
  | nil => simp [lines]
  | cons b l ih =>
    obtain ⟨hb, hl⟩ := forall_mem_cons.1 h
    simp [lines, hb, ih _ hl]

theorem lines_block (h : ∀ b ∈ l, b ≠ 10 ∧ b ≠ 13) (r : Bytes) :
    lines false [] (l ++ [10, 10] ++ r) = l :: [] :: lines false [] r := by
  rw [append_assoc]
  exact (lines_append [] h (10 :: r)).trans (by simp [lines])

theorem Whole.append (ht : Whole t es) (hu : Whole u fs) : Whole (t ++ u) (es ++ fs) := by
  intro r before
  rw [append_assoc, ht, hu, append_assoc]

theorem whole_comment (h : ∀ b ∈ l, b ≠ 10 ∧ b ≠ 13) : Whole (58 :: l ++ [10, 10]) [] := by
  intro r before
  have hname : ¬ [] = ofString "data" := by decide
  rw [lines_block (forall_mem_cons.2 ⟨by decide, h⟩)]
  simp [Reader.read, hname]

theorem whole_data (h : ∀ b ∈ l, b ≠ 10 ∧ b ≠ 13) :
    Whole (ofString "data: " ++ l ++ [10, 10]) [l] := by
  intro r before
  have hdata : ofString "data: " = [100, 97, 116, 97, 58, 32] := by decide
  have hname : ofString "data" = [100, 97, 116, 97] := by decide
  rw [lines_block (forall_mem_append.2 ⟨by decide +kernel, h⟩)]
  simp [Reader.read, value, hdata, hname]

theorem Whole.events (h : Whole t es) (hmark : t.head? ≠ some 0xEF) : events t = es := by
  have hdrop : dropMark t = t := by
    rw [dropMark, if_neg]
    cases t with
    | nil => simp
    | cons b t =>
      have hb : ¬ 0xEF = b := fun h => hmark (by simp [h])
      simp [hb]
  have hread := h [] []
  rw [append_nil, nil_append] at hread
  rw [Sse.events, hdrop, hread]
  rfl

end Sse
