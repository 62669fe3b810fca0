/-
# `CKernel.Conc.Format` — `logger::format_msg`

The placeholders `{}` of a format are replaced from left to right by the arguments,
which are strings already.  The scan keeps a position in the format and an index into
the arguments; it is the same in `logger.h` and `logger_v0.h`.

The specification knows neither: the placeholders cut the format into pieces, the
`i`-th piece is followed by the `i`-th argument, and what arguments are left follow the
last piece.

    one round of the scan consumes one piece              (`formatLoop_cons`)
    the scan ends, with the pieces and arguments in turn  (`formatLoop_eq`)
    the message is the one specified                      (`format_msg_spec`)
-/
import CKernel.Lib.Pieces

namespace CKernel.Conc

/-! ## The code -/

/-- `"{}"` -/
def braces : List Char := ['\x7b', '\x7d']

/-- `str.find("{}", pos)`, for a position in the string -/
def findBraces (str : List Char) (pos : Nat) : Option Nat :=
  (search braces (str.drop pos)).map (pos + ·)

/-- `str.substr(pos, len)` -/
def substr (str : List Char) (pos len : Nat) : List Char := (str.drop pos).take len

/-- The loop of `format_msg`: `oss`, `arg_idx`, `pos` and `placeholder`.  It stops for
want of fuel, or with the values of the first three.  The arguments of a call are few
enough to be counted by the `int n`. -/
def formatLoop (format : List Char) (argStrs : List (List Char)) :
    Nat → List Char → Nat → Nat → Option Nat → Option (List Char × Nat × Nat)
  | 0, _, _, _, _ => none
  | _ + 1, oss, argIdx, pos, none => some (oss, argIdx, pos)
  | fuel + 1, oss, argIdx, pos, some placeholder =>
      let oss := oss ++ substr format pos (placeholder - pos)
      let (oss, argIdx) :=
        match argStrs[argIdx]? with
        | some arg => (oss ++ arg, argIdx + 1)
        | none => (oss ++ braces, argIdx)
      let pos := placeholder + 2
      formatLoop format argStrs fuel oss argIdx pos (findBraces format pos)

/-- After the loop: the rest of the format, and the arguments not used yet. -/
def formatRest (format : List Char) (argStrs : List (List Char)) :
    List Char × Nat × Nat → List Char
  | (oss, argIdx, pos) => oss ++ format.drop pos ++ (argStrs.drop argIdx).flatten

/-- `format_msg(format, args...)` at the time `currTime` -/
def formatMsg (fuel : Nat) (currTime format : List Char) (argStrs : List (List Char)) :
    Option (List Char) := do
  let scanned ← formatLoop format argStrs fuel [] 0 0 (findBraces format 0)
  some (['['] ++ currTime ++ [']', ' '] ++ formatRest format argStrs scanned)

/-! ## The specification -/

/-- The pieces from the `i`-th on: each but the last followed by its argument, or by the
placeholder if there is none, and the last by the arguments that are left. -/
def filledFrom (args : List (List Char)) (i : Nat) (pieces : List (List Char)) : List Char :=
  ((pieces.dropLast.zipIdx i).flatMap fun (piece, j) => piece ++ args.getD j braces) ++
    pieces.getLastD [] ++ (args.drop (i + pieces.length - 1)).flatten

def filled (args pieces : List (List Char)) : List Char := filledFrom args 0 pieces

variable {format oss piece : List Char} {args pieces : List (List Char)} {fuel i pos n : Nat}

theorem filledFrom_singleton : filledFrom args i [piece] = piece ++ (args.drop i).flatten := by
  simp [filledFrom]

theorem filledFrom_cons (h : pieces ≠ []) :
    filledFrom args i (piece :: pieces) =
      piece ++ args.getD i braces ++ filledFrom args (i + 1) pieces := by
  have hlen : i + (piece :: pieces).length - 1 = i + 1 + pieces.length - 1 := by
    rw [List.length_cons]
    omega
  have hlast : (piece :: pieces).getLastD [] = pieces.getLastD [] := by
    cases pieces with
    | nil => exact absurd rfl h
    | cons => rfl
  rw [filledFrom, filledFrom, List.dropLast_cons_of_ne_nil h, List.zipIdx_cons, List.flatMap_cons,
    hlen, hlast]
  simp only [List.append_assoc]

theorem ne_nil_of_pieces (h : Pieces braces format pieces) : pieces ≠ [] := by
  cases h with
  | last => exact List.cons_ne_nil _ _
  | cons => exact List.cons_ne_nil _ _

/-! ## The scan -/

/-- The index into the arguments stops at their number. -/
theorem formatLoop_cons (hfound : search braces (format.drop pos) = some n) :
    formatLoop format args (fuel + 1) oss (min i args.length) pos (findBraces format pos) =
      formatLoop format args fuel (oss ++ (format.drop pos).take n ++ args.getD i braces)
        (min (i + 1) args.length) (pos + n + 2) (findBraces format (pos + n + 2)) := by
  have hfind : findBraces format pos = some (pos + n) := by
    rw [findBraces, hfound, Option.map_some]
  rw [hfind, formatLoop, substr, Nat.add_sub_cancel_left]
  by_cases hi : i < args.length
  · have harg : args[i]? = some (args.getD i braces) := by
      rw [List.getD_eq_getElem?_getD, List.getElem?_eq_getElem hi, Option.getD_some]
    rw [Nat.min_eq_left (Nat.le_of_lt hi), Nat.min_eq_left hi, harg]
  · have hle : args.length ≤ i := Nat.le_of_not_lt hi
    have harg : args.getD i braces = braces := by
      rw [List.getD_eq_getElem?_getD, List.getElem?_eq_none hle, Option.getD_none]
    rw [Nat.min_eq_right hle, Nat.min_eq_right (Nat.le_succ_of_le hle),
      List.getElem?_eq_none (Nat.le_refl _), harg]

/-- From any position the scan ends with the pieces of what is left of the format. -/
theorem formatLoop_eq (hfuel : format.length - pos < fuel) :
    ∃ pieces, Pieces braces (format.drop pos) pieces ∧
      (formatLoop format args fuel oss (min i args.length) pos (findBraces format pos)).map
        (formatRest format args) = some (oss ++ filledFrom args i pieces) := by
  induction fuel generalizing oss i pos with
  | zero => exact absurd hfuel (Nat.not_lt_zero _)
  | succ fuel ih =>
      cases hfound : search braces (format.drop pos) with
      | none =>
          have hfind : findBraces format pos = none := by
            rw [findBraces, hfound, Option.map_none]
          have hrest : args.drop (min i args.length) = args.drop i := by
            rcases Nat.le_total i args.length with hle | hle
            · rw [Nat.min_eq_left hle]
            · rw [Nat.min_eq_right hle, List.drop_length, List.drop_of_length_le hle]
          refine ⟨[format.drop pos], .last (search_eq_none_iff.mp hfound), ?_⟩
          rw [hfind, formatLoop, Option.map_some, formatRest, hrest, filledFrom_singleton,
            List.append_assoc]
      | some n =>
          have hlen := congrArg List.length (search_cut hfound)
          rw [List.length_append, List.length_append, length_take_of_search hfound,
            List.length_drop] at hlen
          have hroom : format.length - (pos + n + 2) < fuel := by
            have htwo : braces.length = 2 := rfl
            omega
          obtain ⟨pieces, hpieces, hloop⟩ :=
            @ih (oss ++ (format.drop pos).take n ++ args.getD i braces) (i + 1) (pos + n + 2) hroom
          have hcut : format.drop (pos + n + 2) = (format.drop pos).drop (n + braces.length) := by
            rw [List.drop_drop, Nat.add_assoc]
            rfl
          rw [hcut] at hpieces
          refine ⟨_, Pieces.of_search hfound hpieces, ?_⟩
          rw [formatLoop_cons hfound, hloop, filledFrom_cons (ne_nil_of_pieces hpieces)]
          simp only [List.append_assoc]

/-- With as many rounds as the format has characters, and one, the scan ends, and the
message after its time stamp is the specified one for the only way to cut the format. -/
theorem format_msg_spec (currTime format : List Char) (args : List (List Char)) (fuel : Nat)
    (hfuel : format.length < fuel) :
    ∃ pieces, Pieces braces format pieces ∧
      (∀ others, Pieces braces format others → others = pieces) ∧
      formatMsg fuel currTime format args =
        some (['['] ++ currTime ++ [']', ' '] ++ filled args pieces) := by
  obtain ⟨pieces, hpieces, hloop⟩ :=
    @formatLoop_eq format [] args fuel 0 0 hfuel
  refine ⟨pieces, hpieces, fun others hothers => hothers.unique hpieces, ?_⟩
  rw [Nat.zero_min] at hloop
  obtain ⟨scanned, hscanned, hrest⟩ := Option.map_eq_some_iff.mp hloop
  rw [formatMsg, hscanned, Option.bind_eq_bind, Option.bind_some, hrest]
  rfl

/-- `"{{}{}x{}}"` -/
def unbalanced : List Char := '\x7b' :: braces ++ braces ++ ['x'] ++ braces ++ ['\x7d']

/-- Adjacent and unbalanced braces, braces in an argument, one argument too few. -/
theorem format_msg_spec_braces :
    ∃ pieces, Pieces braces unbalanced pieces ∧
      formatMsg 10 "now".toList unbalanced [braces, "b".toList] =
        some ("[now] ".toList ++ filled [braces, "b".toList] pieces) ∧
      formatMsg 10 "now".toList unbalanced [braces, "b".toList] =
        some ("[now] ".toList ++ '\x7b' :: braces ++ ['b', 'x'] ++ braces ++ ['\x7d']) := by
  obtain ⟨pieces, hpieces, -, heq⟩ := format_msg_spec "now".toList unbalanced
    [braces, "b".toList] 10 (by decide)
  exact ⟨pieces, hpieces, heq, by decide +kernel⟩

end CKernel.Conc
