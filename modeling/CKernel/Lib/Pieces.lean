/-
# `CKernel.Lib.Pieces` — a text cut at the occurrences of a pattern

The leftmost occurrences of a pattern that do not overlap cut a text into pieces: up
to the first occurrence, then the same for what follows it, and what is left when the
pattern does not occur any more.  `search` finds the first occurrence.

    where the pattern occurs first                   (`search_eq_some_iff`)
    or not at all                                    (`search_eq_none_iff`)
    the first piece and what follows it              (`search_cut`)
    a text is cut in one way                         (`Pieces.unique`)
-/
import Mathlib

namespace CKernel

variable {α : Type} [DecidableEq α] (pat : List α)

/-- The first position at which the pattern occurs. -/
def search : List α → Option Nat
  | [] => if pat = [] then some 0 else none
  | a :: text => if pat <+: a :: text then some 0 else (search text).map (· + 1)

/-- The pieces of a text. -/
inductive Pieces : List α → List (List α) → Prop
  | last {text : List α} (h : ¬ pat <:+: text) : Pieces text [text]
  | cons {piece text : List α} {pieces : List (List α)}
      (hfirst : ∀ j < piece.length, ¬ pat <+: (piece ++ pat ++ text).drop j)
      (h : Pieces text pieces) : Pieces (piece ++ pat ++ text) (piece :: pieces)

variable {pat} {text : List α} {n : Nat}

theorem search_eq_some_iff :
    search pat text = some n ↔ pat <+: text.drop n ∧ ∀ j < n, ¬ pat <+: text.drop j := by
  induction text generalizing n with
  | nil =>
      simp only [search, List.drop_nil, List.prefix_nil]
      split
      case isTrue hnil =>
        rw [Option.some.injEq]
        refine ⟨?_, fun ⟨_, h⟩ => ?_⟩
        · rintro rfl
          exact ⟨hnil, fun j hj => absurd hj (Nat.not_lt_zero j)⟩
        · exact (Nat.eq_zero_of_not_pos fun hpos => h 0 hpos hnil).symm
      case isFalse hne =>
        constructor
        · intro h
          cases h
        · intro ⟨hpre, _⟩
          exact absurd hpre hne
  | cons a text ih =>
      rw [search]
      split
      case isTrue hpre =>
        rw [Option.some.injEq]
        refine ⟨?_, fun ⟨_, h⟩ => ?_⟩
        · rintro rfl
          exact ⟨hpre, fun j hj => absurd hj (Nat.not_lt_zero j)⟩
        · exact (Nat.eq_zero_of_not_pos fun hpos => h 0 hpos hpre).symm
      case isFalse hpre =>
        cases n with
        | zero =>
            refine ⟨fun h => ?_, fun h => absurd h.1 hpre⟩
            obtain ⟨m, -, hm⟩ := Option.map_eq_some_iff.mp h
            exact absurd hm (Nat.succ_ne_zero m)
        | succ n =>
            rw [Option.map_eq_some_iff]
            simp only [Nat.add_right_cancel_iff, exists_eq_right, ih, List.drop_succ_cons]
            refine and_congr_right fun _ => ⟨fun h j hj => ?_, fun h j hj => ?_⟩
            · cases j with
              | zero => exact hpre
              | succ j => exact h j (Nat.lt_of_succ_lt_succ hj)
            · exact h (j + 1) (Nat.succ_lt_succ hj)

theorem search_eq_none_iff : search pat text = none ↔ ¬ pat <:+: text := by
  induction text with
  | nil =>
      rw [search, List.infix_nil]
      split
      case isTrue hnil => simp [hnil]
      case isFalse hne => simp [hne]
  | cons a text ih =>
      rw [search, List.infix_cons_iff]
      split
      case isTrue hpre => simp [hpre]
      case isFalse hpre => rw [Option.map_eq_none_iff, ih, or_iff_right hpre]

/-- What is before the first occurrence, and what follows it. -/
theorem search_cut (h : search pat text = some n) :
    text = text.take n ++ pat ++ text.drop (n + pat.length) := by
  obtain ⟨⟨rest, hrest⟩, -⟩ := search_eq_some_iff.mp h
  have hdrop : text.drop (n + pat.length) = rest := by
    rw [← List.drop_drop, ← hrest, List.drop_left]
  rw [hdrop, List.append_assoc, hrest, List.take_append_drop]

theorem length_take_of_search (h : search pat text = some n) : (text.take n).length = n := by
  refine List.length_take_of_le ?_
  by_contra hlt
  obtain ⟨hpre, hfirst⟩ := search_eq_some_iff.mp h
  have hlen : text.length < n := Nat.lt_of_not_le hlt
  rw [List.drop_of_length_le (Nat.le_of_lt hlen)] at hpre
  refine hfirst text.length hlen ?_
  rwa [List.drop_length]

/-- The first piece ends at the first occurrence. -/
theorem Pieces.of_search {pieces : List (List α)} (h : search pat text = some n)
    (hrest : Pieces pat (text.drop (n + pat.length)) pieces) :
    Pieces pat text (text.take n :: pieces) := by
  have hfirst : ∀ j < (text.take n).length,
      ¬ pat <+: (text.take n ++ pat ++ text.drop (n + pat.length)).drop j := by
    rw [← search_cut h, length_take_of_search h]
    exact (search_eq_some_iff.mp h).2
  have hcons := Pieces.cons hfirst hrest
  rwa [← search_cut h] at hcons

theorem search_of_cons {piece text : List α}
    (hfirst : ∀ j < piece.length, ¬ pat <+: (piece ++ pat ++ text).drop j) :
    search pat (piece ++ pat ++ text) = some piece.length := by
  refine search_eq_some_iff.mpr ⟨?_, hfirst⟩
  rw [List.append_assoc, List.drop_left]
  exact List.prefix_append pat text

theorem Pieces.unique {pieces others : List (List α)} (h : Pieces pat text pieces)
    (h' : Pieces pat text others) : pieces = others := by
  induction h generalizing others with
  | last hnone =>
      cases h' with
      | last => rfl
      | cons => exact absurd ⟨_, _, rfl⟩ hnone
  | @cons piece text pieces hfirst hrest ih =>
      generalize htext : piece ++ pat ++ text = t at h'
      cases h' with
      | last hnone => exact absurd ⟨_, _, htext⟩ hnone
      | @cons piece' text' pieces' hfirst' hrest' =>
          -- both first pieces end at the first occurrence
          have hlen : piece.length = piece'.length := by
            have hsearch := search_of_cons hfirst
            rw [htext, search_of_cons hfirst'] at hsearch
            exact (Option.some.inj hsearch).symm
          rw [List.append_assoc, List.append_assoc] at htext
          obtain ⟨rfl, htail⟩ := List.append_inj htext hlen
          obtain rfl := List.append_cancel_left htail
          rw [ih hrest']

end CKernel
