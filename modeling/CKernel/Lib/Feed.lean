/-
# `CKernel.Lib.Feed` — reading from a feed of values and stops

A feed has values in it and, between them, stops: an end of file, an error.  A read
of at most `n` values takes them one after the other, up to and with a value that
is the last one of a record, and no further than the first stop.  After its last
item a feed stops with `fin` for ever.

    no value is skipped, read twice or put in another place      (`take_split`, `vals_take`)
    a read of a block is a read of what it has                   (`take_block`, `take_exact`)
    a read ends at a stop, at its last value, or when it is full (`take_stopped`, `take_full`)
-/
import Mathlib

namespace CKernel.Feed

variable {α ε : Type}

inductive Item (α ε : Type) where
  | val (a : α)
  | stop (e : ε)
  deriving DecidableEq, Repr

/-- What a read has, what stopped it, and what it leaves. -/
structure Taken (α ε : Type) where
  vals : List α
  stopped : Option ε
  rest : List (Item α ε)
  deriving DecidableEq, Repr

/-- The same after these values. -/
def Taken.prepend (vs : List α) (t : Taken α ε) : Taken α ε := { t with vals := vs ++ t.vals }

/-- A read of at most `n` values, up to one that is `last`. -/
def take (fin : ε) (last : α → Bool) : Nat → List (Item α ε) → Taken α ε
  | 0, feed => ⟨[], none, feed⟩
  | _ + 1, [] => ⟨[], some fin, []⟩
  | _ + 1, .stop e :: feed => ⟨[], some e, feed⟩
  | n + 1, .val a :: feed =>
      if last a then ⟨[a], none, feed⟩ else (take fin last n feed).prepend [a]

/-- A read of values that no one of them ends. -/
def unending : α → Bool := fun _ => false

namespace Taken
variable {t : Taken α ε} {vs ws : List α}

@[simp] theorem prepend_vals : (t.prepend vs).vals = vs ++ t.vals := rfl

@[simp] theorem prepend_rest : (t.prepend vs).rest = t.rest := rfl

@[simp] theorem prepend_prepend : (t.prepend ws).prepend vs = t.prepend (vs ++ ws) :=
  congrArg (fun us => (⟨us, t.stopped, t.rest⟩ : Taken α ε)) (List.append_assoc vs ws t.vals).symm

end Taken

section Take
variable {fin : ε} {last : α → Bool} {n : Nat} {feed : List (Item α ε)}

@[simp] theorem take_zero : take fin last 0 feed = ⟨[], none, feed⟩ := by
  cases feed with
  | nil => rfl
  | cons item feed => cases item <;> rfl

theorem take_val_last {a : α} (h : last a = true) :
    take fin last (n + 1) (.val a :: feed) = ⟨[a], none, feed⟩ := by
  rw [take, if_pos h]

theorem take_val {a : α} (h : last a = false) :
    take fin last (n + 1) (.val a :: feed) = (take fin last n feed).prepend [a] := by
  rw [take, if_neg (Bool.eq_false_iff.mp h)]

/-- The feed is what the read has, the stop it ran into if any, and what it leaves. -/
theorem take_split (n : Nat) (feed : List (Item α ε)) :
    feed = (take fin last n feed).vals.map .val ++ (take fin last n feed).rest ∨
      ∃ e, (take fin last n feed).stopped = some e ∧
        feed = (take fin last n feed).vals.map .val ++
          .stop e :: (take fin last n feed).rest := by
  induction n generalizing feed with
  | zero =>
      rw [take_zero]
      exact .inl rfl
  | succ n ih =>
      cases feed with
      | nil => exact .inl rfl
      | cons item feed =>
          cases item with
          | stop e => exact .inr ⟨e, rfl, rfl⟩
          | val a =>
              cases hlast : last a with
              | true =>
                  rw [take_val_last hlast]
                  exact .inl rfl
              | false =>
                  rw [take_val hlast]
                  obtain h | ⟨e, he, h⟩ := ih feed
                  · exact .inl (congrArg (Item.val a :: ·) h)
                  · exact .inr ⟨e, he, congrArg (Item.val a :: ·) h⟩

/-- The values of a feed, without its stops. -/
def vals : List (Item α ε) → List α
  | [] => []
  | .val a :: feed => a :: vals feed
  | .stop _ :: feed => vals feed

theorem vals_block (block : List α) (feed : List (Item α ε)) :
    vals (block.map .val ++ feed) = block ++ vals feed := by
  induction block with
  | nil => rfl
  | cons a block ih => exact congrArg (a :: ·) ih

/-- Whatever stops a read, the values of the feed are those it has and those it leaves. -/
theorem vals_take (n : Nat) (feed : List (Item α ε)) :
    vals feed = (take fin last n feed).vals ++ vals (take fin last n feed).rest := by
  obtain hsplit | ⟨e, -, hsplit⟩ := @take_split α ε fin last n feed
  · exact (congrArg vals hsplit).trans (vals_block _ _)
  · exact (congrArg vals hsplit).trans (vals_block _ _)

theorem length_take_le (n : Nat) (feed : List (Item α ε)) :
    (take fin last n feed).vals.length ≤ n := by
  induction n generalizing feed with
  | zero =>
      rw [take_zero]
      exact Nat.le_refl 0
  | succ n ih =>
      cases feed with
      | nil => exact Nat.zero_le _
      | cons item feed =>
          cases item with
          | stop e => exact Nat.zero_le _
          | val a =>
              cases hlast : last a with
              | true =>
                  rw [take_val_last hlast]
                  exact Nat.succ_le_succ (Nat.zero_le n)
              | false =>
                  rw [take_val hlast]
                  exact Nat.succ_le_succ (ih feed)

/-- No value ends a record but the last one read. -/
theorem last_take (n : Nat) (feed : List (Item α ε)) :
    ∀ a ∈ (take fin last n feed).vals.dropLast, last a = false := by
  induction n generalizing feed with
  | zero =>
      intro a ha
      rw [take_zero] at ha
      cases ha
  | succ n ih =>
      intro a ha
      cases feed with
      | nil => cases ha
      | cons item feed =>
          cases item with
          | stop e => cases ha
          | val b =>
              cases hlast : last b with
              | true =>
                  rw [take_val_last hlast] at ha
                  cases ha
              | false =>
                  rw [take_val hlast, Taken.prepend_vals, List.singleton_append] at ha
                  cases hvals : (take fin last n feed).vals with
                  | nil =>
                      rw [hvals] at ha
                      cases ha
                  | cons c cs =>
                      rw [hvals, List.dropLast_cons_cons] at ha
                      obtain rfl | ha := List.mem_cons.mp ha
                      · exact hlast
                      · exact ih feed a (hvals ▸ ha)

/-- A block of values that is no longer than the read and has no last value in it. -/
theorem take_block {block : List α} (hlast : ∀ a ∈ block, last a = false)
    (hn : block.length ≤ n) :
    take fin last n (block.map .val ++ feed) =
      (take fin last (n - block.length) feed).prepend block := by
  induction block generalizing n with
  | nil => rfl
  | cons a block ih =>
      cases n with
      | zero => exact absurd hn (Nat.not_succ_le_zero _)
      | succ n =>
          have hrest := ih (fun b hb => hlast b (List.mem_cons_of_mem a hb))
            (Nat.le_of_succ_le_succ hn)
          rw [List.map_cons, List.cons_append, take_val (hlast a List.mem_cons_self), hrest,
            List.length_cons, Nat.add_sub_add_right, Taken.prepend_prepend]
          rfl

/-- A read that was stopped has met the stop, or the end. -/
theorem take_stopped {e : ε} {n : Nat} {feed : List (Item α ε)}
    (h : (take fin last n feed).stopped = some e) :
    (∃ rest, feed = (take fin last n feed).vals.map .val ++ .stop e :: rest) ∨
      e = fin ∧ feed = (take fin last n feed).vals.map .val := by
  induction n generalizing feed with
  | zero =>
      rw [take_zero] at h
      cases h
  | succ n ih =>
      cases feed with
      | nil => exact .inr ⟨(Option.some.inj h).symm, rfl⟩
      | cons item feed =>
          cases item with
          | stop e' => exact .inl ⟨feed, congrArg (fun e => .stop e :: feed) (Option.some.inj h)⟩
          | val a =>
              cases hlast : last a with
              | true =>
                  rw [take_val_last hlast] at h
                  cases h
              | false =>
                  rw [take_val hlast] at h ⊢
                  rcases ih h with ⟨rest, hrest⟩ | ⟨he, hfeed⟩
                  · exact .inl ⟨rest, congrArg (.val a :: ·) hrest⟩
                  · exact .inr ⟨he, congrArg (.val a :: ·) hfeed⟩

/-- A read that was not is full, or its last value ends the record. -/
theorem take_full {n : Nat} {feed : List (Item α ε)}
    (h : (take fin last n feed).stopped = none) :
    (take fin last n feed).vals.length = n ∨
      ∃ a, (take fin last n feed).vals.getLast? = some a ∧ last a = true := by
  induction n generalizing feed with
  | zero =>
      rw [take_zero]
      exact .inl rfl
  | succ n ih =>
      cases feed with
      | nil => cases h
      | cons item feed =>
          cases item with
          | stop e => cases h
          | val a =>
              cases hlast : last a with
              | true =>
                  rw [take_val_last hlast]
                  exact .inr ⟨a, rfl, hlast⟩
              | false =>
                  rw [take_val hlast] at h ⊢
                  rcases ih h with hlen | ⟨z, hz, hend⟩
                  · exact .inl (congrArg Nat.succ hlen)
                  · refine .inr ⟨z, ?_, hend⟩
                    rw [Taken.prepend_vals, List.getLast?_append, hz]
                    rfl

end Take

section Unending
variable {fin : ε} {m n : Nat} {feed : List (Item α ε)}

theorem take_unending_block {block : List α} (hn : block.length ≤ n) :
    take fin unending n (block.map .val ++ feed) =
      (take fin unending (n - block.length) feed).prepend block :=
  take_block (fun _ _ => rfl) hn

/-- A block that is what the read asks for. -/
theorem take_exact {block : List α} (hn : block.length = n) :
    take fin unending n (block.map .val ++ feed) = ⟨block, none, feed⟩ := by
  rw [take_unending_block (Nat.le_of_eq hn), hn, Nat.sub_self, take_zero]
  exact congrArg (fun vs => (⟨vs, none, feed⟩ : Taken α ε)) (List.append_nil block)

end Unending

end CKernel.Feed
