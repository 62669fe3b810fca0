/-
# `CKernel.Lib.Mem` — byte memory

Memory is a byte at every address; `load n` and `store n` move `n` bytes, least
significant first, so that a value that does not fit is cut off exactly as an
assignment to an `n`-byte integer cuts it off.  `EqOff m m' lo hi` is the frame
condition of everything that writes: nothing outside `[lo, hi)` has changed.
-/
import Mathlib

namespace CKernel

abbrev Mem := Nat → UInt8

namespace Mem

/-- The `n`-byte little-endian value at an address. -/
def load (m : Mem) : Nat → Nat → Nat
  | 0, _ => 0
  | n + 1, a => (m a).toNat + 256 * load m n (a + 1)

/-- The low `n` bytes of `v` at address `a`. -/
def store (m : Mem) (n a v : Nat) : Mem := fun x =>
  if a ≤ x ∧ x < a + n then UInt8.ofNat (v / 256 ^ (x - a)) else m x

/-- `memcpy(dst, src, n)` -/
def copy (m : Mem) (dst src n : Nat) : Mem := fun x =>
  if dst ≤ x ∧ x < dst + n then m (src + (x - dst)) else m x

variable {m m' m'' : Mem} {n k a b v lo hi : Nat}

theorem load_congr (h : ∀ x, a ≤ x → x < a + n → m' x = m x) : load m' n a = load m n a := by
  induction n generalizing a with
  | zero => rfl
  | succ n ih =>
      rw [load, load, h a (Nat.le_refl a) (by omega), ih]
      intro x hlow hhigh
      exact h x (by omega) (by omega)

theorem load_lt : load m n a < 256 ^ n := by
  induction n generalizing a with
  | zero => exact Nat.one_pos
  | succ n ih =>
      have hbyte := (m a).toNat_lt
      have hrest := @ih (a + 1)
      rw [load, pow_succ']
      omega

/-- A memory whose bytes from `a` on are those of `v` reads as `v`. -/
theorem load_of_bytes (h : ∀ i < n, m (a + i) = UInt8.ofNat (v / 256 ^ i)) :
    load m n a = v % 256 ^ n := by
  induction n generalizing a v with
  | zero => rw [load, pow_zero, Nat.mod_one]
  | succ n ih =>
      have hhead := h 0 (Nat.succ_pos n)
      have htail : load m n (a + 1) = v / 256 % 256 ^ n := by
        refine ih fun i hi => ?_
        have hbyte := h (i + 1) (Nat.succ_lt_succ hi)
        rw [pow_succ', ← Nat.div_div_eq_div_mul] at hbyte
        rw [← hbyte, Nat.add_right_comm, Nat.add_assoc]
      rw [Nat.add_zero, pow_zero, Nat.div_one] at hhead
      rw [load, hhead, htail, pow_succ', Nat.mod_mul, UInt8.toNat_ofNat']

theorem load_store_self : load (store m n a v) n a = v % 256 ^ n := by
  refine load_of_bytes fun i hi => ?_
  rw [store, if_pos ⟨Nat.le_add_right a i, Nat.add_lt_add_left hi a⟩, Nat.add_sub_cancel_left]

/-- Only the low bytes of a value are stored. -/
theorem store_mod : store m n a (v % 256 ^ n) = store m n a v := by
  funext x
  rw [store, store]
  refine ite_congr rfl (fun hx => ?_) fun _ => rfl
  obtain ⟨i, rfl⟩ := Nat.exists_eq_add_of_le hx.1
  obtain ⟨k, rfl⟩ := Nat.exists_eq_add_of_lt (Nat.add_lt_add_iff_left.mp hx.2)
  have hpow : 256 ^ (i + k + 1) = 256 ^ i * 256 ^ (k + 1) := by rw [Nat.add_assoc, Nat.pow_add]
  have hdvd : 256 ∣ 256 ^ (k + 1) := dvd_pow_self 256 (Nat.succ_ne_zero k)
  refine UInt8.toNat_inj.mp ?_
  rw [Nat.add_sub_cancel_left, UInt8.toNat_ofNat', UInt8.toNat_ofNat', hpow,
    Nat.mod_mul_right_div_self, Nat.mod_mod_of_dvd _ hdvd]

/-! ## Parts of a value -/

theorem load_add : load m (n + k) a = load m n a + 256 ^ n * load m k (a + n) := by
  induction n generalizing a with
  | zero => rw [load, Nat.zero_add, pow_zero, Nat.zero_add, Nat.one_mul, Nat.add_zero]
  | succ n ih =>
      rw [Nat.add_right_comm, load, load, ih, pow_succ', Nat.mul_add, Nat.mul_assoc,
        Nat.add_assoc a, Nat.add_comm 1 n]
      exact (Nat.add_assoc _ _ _).symm

theorem store_add : store m (n + k) a v = store (store m n a v) k (a + n) (v / 256 ^ n) := by
  funext x
  by_cases hhigh : a + n ≤ x ∧ x < a + n + k
  · have hdiv : v / 256 ^ (x - a) = v / 256 ^ n / 256 ^ (x - (a + n)) := by
      rw [Nat.div_div_eq_div_mul, ← Nat.pow_add]
      congr 2
      omega
    rw [store, store, if_pos (by omega), if_pos hhigh, hdiv]
  · rw [store, store, if_neg hhigh, store]
    exact if_congr (by omega) rfl rfl

/-! ## Frames -/

/-- The two memories agree outside `[lo, hi)`. -/
def EqOff (m m' : Mem) (lo hi : Nat) : Prop := ∀ x, x < lo ∨ hi ≤ x → m' x = m x

theorem EqOff.refl (m : Mem) (lo hi : Nat) : EqOff m m lo hi := fun _ _ => rfl

theorem EqOff.trans (h : EqOff m m' lo hi) (h' : EqOff m' m'' lo hi) : EqOff m m'' lo hi :=
  fun x hx => (h' x hx).trans (h x hx)

theorem EqOff.mono {lo' hi' : Nat} (h : EqOff m m' lo hi) (hlo : lo' ≤ lo) (hhi : hi ≤ hi') :
    EqOff m m' lo' hi' := by
  intro x hx
  refine h x ?_
  omega

theorem EqOff.load (h : EqOff m m' lo hi) (ha : a + n ≤ lo ∨ hi ≤ a) :
    load m' n a = load m n a := by
  refine load_congr fun x hlow hhigh => h x ?_
  omega

theorem eqOff_store : EqOff m (store m n a v) a (a + n) := by
  intro x hx
  rw [store, if_neg]
  omega

theorem eqOff_copy {src : Nat} : EqOff m (copy m a src n) a (a + n) := by
  intro x hx
  rw [copy, if_neg]
  omega

theorem copy_apply {src i : Nat} (hi : i < n) : copy m a src n (a + i) = m (src + i) := by
  rw [copy, if_pos ⟨Nat.le_add_right a i, Nat.add_lt_add_left hi a⟩, Nat.add_sub_cancel_left]

theorem load_store_of_disjoint (h : b + k ≤ a ∨ a + n ≤ b) :
    load (store m n a v) k b = load m k b :=
  eqOff_store.load h

end Mem

end CKernel
