/-
Well-nested sequences of marks.

A mark starts a node, stops one, or is a leaf. `marks` writes a list of trees as the
sequence that starts and stops each node around its children, and `read` goes the other
way with a stack of the nodes that are open: it refuses a stop that does not fit the last
open node, and an end that leaves a node open. `read_iff` says that the two are inverse,
so a sequence that is read at all is balanced, and its trees are the only ones it has.
-/
import Mathlib.Logic.Basic

set_option autoImplicit false

namespace Nested

universe u

variable {N A L : Type u}

/-- A mark of the flat form: where an element starts, where it stops, or a leaf. -/
inductive Mark (N A L : Type u)
  | start (name : N) (attrs : A)
  | stop (name : N)
  | leaf (content : L)

/-- A tree of elements, with leaves of any kind between them. -/
inductive Tree (N A L : Type u)
  | leaf (content : L)
  | node (name : N) (attrs : A) (children : List (Tree N A L))

mutual

/-- A tree, written out. -/
def Tree.marks : Tree N A L → List (Mark N A L)
  | .leaf content => [.leaf content]
  | .node name attrs children => .start name attrs :: (marks children ++ [.stop name])

/-- Trees, written one after another. -/
def marks : List (Tree N A L) → List (Mark N A L)
  | [] => []
  | t :: ts => t.marks ++ marks ts

end

theorem marks_append (ss ts : List (Tree N A L)) : marks (ss ++ ts) = marks ss ++ marks ts := by
  induction ss with
  | nil => rfl
  | cons s ss ih =>
    rw [List.cons_append, marks, marks, ih, List.append_assoc]

theorem marks_singleton (t : Tree N A L) : marks [t] = t.marks := by
  rw [marks, marks, List.append_nil]

/-! ## Reading with a stack -/

/-- An open node, and the trees that stand before it. -/
structure Frame (N A L : Type u) where
  name : N
  attrs : A
  before : List (Tree N A L)

/-- The open nodes, the innermost first, and the trees read inside it so far. -/
structure Reading (N A L : Type u) where
  frames : List (Frame N A L)
  done : List (Tree N A L)

variable [DecidableEq N]

def Reading.step (r : Reading N A L) : Mark N A L → Option (Reading N A L)
  | .start name attrs => some ⟨⟨name, attrs, r.done⟩ :: r.frames, []⟩
  | .leaf content => some ⟨r.frames, r.done ++ [.leaf content]⟩
  | .stop name =>
    match r.frames with
    | [] => none
    | f :: frames =>
      if f.name = name then some ⟨frames, f.before ++ [.node f.name f.attrs r.done]⟩ else none

/-- Reading marks from the left; a mark that cannot stand there ends the reading. -/
def Reading.run : Reading N A L → List (Mark N A L) → Option (Reading N A L)
  | r, [] => some r
  | r, m :: ms => (r.step m).bind fun r => r.run ms

/-- A list of marks is well nested if no element is left open at its end. -/
def read (ms : List (Mark N A L)) : Option (List (Tree N A L)) :=
  match Reading.run ⟨[], []⟩ ms with
  | some ⟨[], done⟩ => some done
  | _ => none

/-- Reading is done piece by piece. -/
theorem Reading.run_append (r : Reading N A L) (ms ms' : List (Mark N A L)) :
    r.run (ms ++ ms') = (r.run ms).bind fun r => r.run ms' := by
  induction ms generalizing r with
  | nil => rfl
  | cons m ms ih =>
    rw [List.cons_append, run, run]
    cases r.step m with
    | none => rfl
    | some r' =>
      rw [Option.bind_some, Option.bind_some]
      exact ih r'

mutual

/-- A tree that was written is read. -/
theorem Reading.run_tree (r : Reading N A L) :
    ∀ t : Tree N A L, r.run t.marks = some ⟨r.frames, r.done ++ [t]⟩
  | .leaf content => rfl
  | .node name attrs children => by
    have hchildren := Reading.run_trees ⟨⟨name, attrs, r.done⟩ :: r.frames, []⟩ children
    rw [Tree.marks, run, step, Option.bind_some, run_append, hchildren, Option.bind_some, run, step]
    dsimp only
    rw [if_pos rfl, List.nil_append]
    rfl

theorem Reading.run_trees (r : Reading N A L) :
    ∀ ts : List (Tree N A L), r.run (marks ts) = some ⟨r.frames, r.done ++ ts⟩
  | [] => by
    rw [List.append_nil]
    rfl
  | t :: ts => by
    have htree := Reading.run_tree r t
    have hrest := Reading.run_trees ⟨r.frames, r.done ++ [t]⟩ ts
    rw [marks, run_append, htree, Option.bind_some, hrest, List.append_assoc]
    rfl

end

/-- The marks of trees read back as these trees. -/
theorem read_marks (ts : List (Tree N A L)) : read (marks ts) = some ts := by
  unfold read
  rw [Reading.run_trees]
  rfl

/-! ## What was read -/

/-- The marks of open nodes. -/
def written : List (Frame N A L) → List (Mark N A L)
  | [] => []
  | f :: frames => written frames ++ marks f.before ++ [.start f.name f.attrs]

/-- A step adds its mark to what has been written. -/
theorem Reading.step_written {r r' : Reading N A L} {m : Mark N A L} (h : r.step m = some r') :
    written r'.frames ++ marks r'.done = written r.frames ++ marks r.done ++ [m] := by
  cases m with
  | start name attrs =>
    have heq := Option.some.inj h
    rw [← heq]
    exact List.append_nil _
  | leaf content =>
    have heq := Option.some.inj h
    rw [← heq, marks_append, marks_singleton, Tree.marks, List.append_assoc]
  | stop name =>
    unfold step at h
    cases hframes : r.frames with
    | nil =>
      rw [hframes] at h
      exact absurd h (by simp)
    | cons f frames =>
      rw [hframes] at h
      dsimp only at h
      split at h
      · rename_i hname
        have heq := Option.some.inj h
        rw [← heq, marks_append, marks_singleton, Tree.marks, written, ← hname]
        simp only [List.append_assoc, List.cons_append, List.nil_append]
      · exact absurd h (by simp)

/-- What has been read is what has been written: no mark is dropped. -/
theorem Reading.run_written {r r' : Reading N A L} {ms : List (Mark N A L)}
    (h : r.run ms = some r') :
    written r'.frames ++ marks r'.done = written r.frames ++ marks r.done ++ ms := by
  induction ms generalizing r with
  | nil =>
    have heq := Option.some.inj h
    rw [heq, List.append_nil]
  | cons m ms ih =>
    rw [run] at h
    cases hstep : r.step m with
    | none =>
      rw [hstep] at h
      exact absurd h (by simp)
    | some r₁ =>
      rw [hstep, Option.bind_some] at h
      rw [ih h, step_written hstep, List.append_assoc]
      rfl

/-- **Reading inverts writing**: a sequence is read as some trees exactly when it is
theirs. -/
theorem read_iff {ms : List (Mark N A L)} {ts : List (Tree N A L)} :
    read ms = some ts ↔ ms = marks ts := by
  constructor
  · intro h
    unfold read at h
    split at h
    · rename_i done hrun
      have hwritten := Reading.run_written hrun
      rw [← Option.some.inj h]
      exact hwritten.symm
    · exact absurd h (by simp)
  · intro h
    rw [h]
    exact read_marks ts

end Nested
