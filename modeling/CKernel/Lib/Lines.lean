/-
# `CKernel.Lib.Lines` — streams cut at a delimiter

A stream is a list of items, one of which, `d`, ends a line.  `unlines` puts lines
together, each with its delimiter, and `completeLines` takes them apart again; what
comes after the last delimiter is no line yet.

    a stream is cut where `findIdx?` says                  (`cut_of_findIdx`)
    taking apart what was put together                     (`completeLines_unlines`)
    two ways to see the same lines                         (`completeLines_eq`)
    what has no delimiter is not longer than a line        (`length_le_of_unlines`)
-/
import Mathlib

namespace CKernel.Lines

variable {α : Type} (d : α)

/-- The lines, each with its delimiter. -/
def unlines (lines : List (List α)) : List α := lines.flatMap (· ++ [d])

section Unlines

variable {d} {line : List α} {lines lines' : List (List α)}

theorem unlines_cons : unlines d (line :: lines) = line ++ d :: unlines d lines := by
  simp [unlines]

theorem unlines_append : unlines d (lines ++ lines') = unlines d lines ++ unlines d lines' :=
  List.flatMap_append

theorem unlines_concat : unlines d (lines ++ [line]) = unlines d lines ++ (line ++ [d]) := by
  simp [unlines]

end Unlines

variable [DecidableEq α]

/-- The lines of the stream, of which the first starts with `line`; one that is not ended
is read as `last` says. -/
def linesFrom (last : List α → List (List α)) (line : List α) : List α → List (List α)
  | [] => last line
  | a :: rest =>
      if a = d then line :: linesFrom last [] rest else linesFrom last (line ++ [a]) rest

/-- The lines that are ended in the stream. -/
def completeLines (stream : List α) : List (List α) := linesFrom d (fun _ => []) [] stream

/-- Those, and what is behind the last delimiter. -/
def allLines (stream : List α) : List (List α) :=
  linesFrom d (fun line => if line = [] then [] else [line]) [] stream

variable {d} {line stream rest start : List α} {lines lines' : List (List α)}
  {last : List α → List (List α)}

/-! ## Cutting one line -/

theorem not_mem_of_findIdx (h : stream.findIdx? (· = d) = none) : d ∉ stream := by
  intro hd
  have := List.findIdx?_eq_none_iff.mp h d hd
  simp at this

theorem cut_of_findIdx {n : Nat} (h : stream.findIdx? (· = d) = some n) :
    stream = stream.take n ++ d :: stream.drop (n + 1) ∧ d ∉ stream.take n ∧
      (stream.take n).length = n := by
  induction stream generalizing n with
  | nil => simp at h
  | cons a stream ih =>
      rw [List.findIdx?_cons] at h
      by_cases ha : a = d
      · simp only [ha, decide_true, if_true, Option.some.injEq] at h
        subst ha
        subst h
        simp
      · simp only [ha, decide_false, Bool.false_eq_true, if_false, Option.map_eq_some_iff] at h
        obtain ⟨n, hn, rfl⟩ := h
        obtain ⟨hcut, hline, hlen⟩ := ih hn
        refine ⟨congrArg (a :: ·) hcut, ?_, congrArg (· + 1) hlen⟩
        intro hd
        rcases List.mem_cons.mp hd with hd | hd
        · exact ha hd.symm
        · exact hline hd

/-! ## Lines and streams -/

theorem linesFrom_append (h : d ∉ stream) :
    linesFrom d last line (stream ++ d :: rest) =
      (line ++ stream) :: linesFrom d last [] rest := by
  induction stream generalizing line with
  | nil => simp [linesFrom]
  | cons a stream ih =>
      have ha : a ≠ d := fun ha => h (ha ▸ List.mem_cons_self)
      rw [List.cons_append, linesFrom, if_neg ha,
        ih fun hd => h (List.mem_cons_of_mem a hd), List.append_assoc]
      rfl

theorem linesFrom_of_not_mem (h : d ∉ stream) :
    linesFrom d last line stream = last (line ++ stream) := by
  induction stream generalizing line with
  | nil => rw [linesFrom, List.append_nil]
  | cons a stream ih =>
      have ha : a ≠ d := fun ha => h (ha ▸ List.mem_cons_self)
      rw [linesFrom, if_neg ha, ih fun hd => h (List.mem_cons_of_mem a hd), List.append_assoc,
        List.singleton_append]

theorem completeLines_unlines (h : ∀ line ∈ lines, d ∉ line) :
    completeLines d (unlines d lines ++ rest) = lines ++ completeLines d rest := by
  induction lines with
  | nil => rfl
  | cons line lines ih =>
      rw [unlines_cons, List.append_assoc, List.cons_append, completeLines,
        linesFrom_append (h line List.mem_cons_self), List.nil_append, List.cons_append]
      exact congrArg (line :: ·) (ih fun l hl => h l (List.mem_cons_of_mem line hl))

theorem completeLines_eq_nil (h : d ∉ rest) : completeLines d rest = [] :=
  linesFrom_of_not_mem h

/-- A stream of ended lines that is seen as some lines and a rest: those are the
first ones, and the others are in the rest. -/
theorem completeLines_eq (h : ∀ line ∈ lines, d ∉ line) (h' : ∀ line ∈ lines', d ∉ line)
    (heq : unlines d lines ++ rest = unlines d lines') : lines' = lines ++ completeLines d rest := by
  have hleft : completeLines d (unlines d lines ++ rest) = lines ++ completeLines d rest :=
    completeLines_unlines h
  have hright : completeLines d (unlines d lines' ++ []) = lines' ++ completeLines d [] :=
    completeLines_unlines h'
  rw [List.append_nil] at hright
  rw [heq, hright] at hleft
  simpa [completeLines, linesFrom] using hleft

/-- What the rest starts with, up to a delimiter, is not longer than the lines. -/
theorem length_le_of_unlines {k : Nat} (h : ∀ line ∈ lines, d ∉ line)
    (h' : ∀ line ∈ lines', d ∉ line ∧ line.length ≤ k)
    (heq : unlines d lines ++ (start ++ rest) = unlines d lines') (hstart : d ∉ start) :
    start.length ≤ k := by
  have hlines := completeLines_eq h (fun line hline => (h' line hline).1) heq
  generalize completeLines d (start ++ rest) = more at hlines
  rw [hlines, unlines_append] at heq
  replace heq := List.append_cancel_left heq
  cases more with
  | nil =>
      have hnil : start = [] := (List.append_eq_nil_iff.mp heq).1
      rw [hnil]
      exact Nat.zero_le k
  | cons line more =>
      have hline := (h' line (hlines ▸ List.mem_append_right _ List.mem_cons_self)).2
      rw [unlines_cons] at heq
      rcases List.append_eq_append_iff.mp heq with ⟨t, ht, -⟩ | ⟨t, ht, ht'⟩
      · rw [ht, List.length_append] at hline
        exact le_trans (Nat.le_add_right ..) hline
      · cases t with
        | nil =>
            rw [ht, List.append_nil]
            exact hline
        | cons a t =>
            have ha : a = d := (List.cons.inj ht').1.symm
            apply absurd _ hstart
            rw [ht, ha]
            exact List.mem_append_right _ List.mem_cons_self

end CKernel.Lines
