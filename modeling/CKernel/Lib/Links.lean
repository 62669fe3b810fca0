/-
# `CKernel.Lib.Links` — doubly linked lists in byte memory

A node is an address with two 4-byte pointers: its predecessor and, behind it, its
successor; null is `0`.  `Seg m q prev h ps` says that `ps` are the nodes met from
`h` along the successors up to `q`, and that each has the one before it as its
predecessor.  `Frame m m' ps` is the frame condition: the two memories agree on
every word outside the nodes `ps`.

    a node is taken out of a list            (`DList.unlink`)
    a node is put in front of a list         (`DList.push`)
-/
import CKernel.Lib.Mem

namespace CKernel.Links

/-! ## Nodes -/

def pred (m : Mem) (p : Nat) : Nat := m.load 4 p

def succ (m : Mem) (p : Nat) : Nat := m.load 4 (p + 4)

def setPred (m : Mem) (p v : Nat) : Mem := m.store 4 p v

def setSucc (m : Mem) (p v : Nat) : Mem := m.store 4 (p + 4) v

/-- Two nodes that share no byte. -/
def Apart (p q : Nat) : Prop := p + 8 ≤ q ∨ q + 8 ≤ p

theorem Apart.symm {p q : Nat} (h : Apart p q) : Apart q p := Or.symm h

variable {m m' m'' : Mem} {p q x v h prev : Nat} {ps qs : List Nat}

theorem pred_setPred (hv : v < 2 ^ 32) : pred (setPred m p v) p = v := by
  rw [pred, setPred, Mem.load_store_self]
  exact Nat.mod_eq_of_lt hv

theorem succ_setSucc (hv : v < 2 ^ 32) : succ (setSucc m p v) p = v := by
  rw [succ, setSucc, Mem.load_store_self]
  exact Nat.mod_eq_of_lt hv

theorem succ_setPred : succ (setPred m p v) p = succ m p :=
  Mem.load_store_of_disjoint (.inr (Nat.le_refl _))

theorem pred_setSucc : pred (setSucc m p v) p = pred m p :=
  Mem.load_store_of_disjoint (.inl (Nat.le_refl _))

/-! ## Frames -/

/-- The memories agree on every word outside the nodes. -/
def Frame (m m' : Mem) (ps : List Nat) : Prop :=
  ∀ q, (∀ p ∈ ps, q + 4 ≤ p ∨ p + 8 ≤ q) → m'.load 4 q = m.load 4 q

theorem Frame.refl (m : Mem) (ps : List Nat) : Frame m m ps := fun _ _ => rfl

theorem Frame.trans (h : Frame m m' ps) (h' : Frame m' m'' ps) : Frame m m'' ps :=
  fun q hq => (h' q hq).trans (h q hq)

theorem Frame.mono (h : Frame m m' ps) (hsub : ∀ p ∈ ps, p ∈ qs) : Frame m m' qs :=
  fun q hq => h q fun p hp => hq p (hsub p hp)

theorem frame_setPred (hx : x ∈ ps) : Frame m (setPred m x v) ps := by
  intro q hq
  have hword := hq x hx
  exact Mem.load_store_of_disjoint (by omega)

theorem frame_setSucc (hx : x ∈ ps) : Frame m (setSucc m x v) ps := by
  intro q hq
  have hword := hq x hx
  exact Mem.load_store_of_disjoint (by omega)

/-- A node apart from the nodes written keeps its links. -/
theorem Frame.links (h : Frame m m' ps) (hx : ∀ p ∈ ps, Apart x p) :
    pred m' x = pred m x ∧ succ m' x = succ m x := by
  refine ⟨h x fun p hp => ?_, h (x + 4) fun p hp => ?_⟩
  · exact (hx p hp).imp (fun hle => by omega) id
  · exact (hx p hp).imp (fun hle => by omega) (fun hle => by omega)

/-! ## Segments -/

def Seg (m : Mem) (q : Nat) : Nat → Nat → List Nat → Prop
  | _, h, [] => h = q
  | prev, h, p :: ps => h = p ∧ p ≠ 0 ∧ pred m p = prev ∧ Seg m q p (succ m p) ps

/-- A whole list: no predecessor in front, null at the end. -/
def DList (m : Mem) (h : Nat) (ps : List Nat) : Prop := Seg m 0 0 h ps

theorem Seg.congr (hseg : Seg m q prev h ps)
    (hsame : ∀ p ∈ ps, pred m' p = pred m p ∧ succ m' p = succ m p) : Seg m' q prev h ps := by
  induction ps generalizing prev h with
  | nil => exact hseg
  | cons p ps ih =>
      obtain ⟨rfl, hp, hprev, hrest⟩ := hseg
      obtain ⟨hsamep, hsames⟩ := hsame h List.mem_cons_self
      refine ⟨rfl, hp, hsamep.trans hprev, ?_⟩
      rw [hsames]
      exact ih hrest fun p hp => hsame p (List.mem_cons_of_mem _ hp)

theorem Seg.frame {rs : List Nat} (hseg : Seg m q prev h ps) (hframe : Frame m m' rs)
    (hapart : ∀ p ∈ ps, ∀ r ∈ rs, Apart p r) : Seg m' q prev h ps :=
  hseg.congr fun p hp => hframe.links (hapart p hp)

theorem Seg.ne_zero (hseg : Seg m q prev h ps) : ∀ p ∈ ps, p ≠ 0 := by
  induction ps generalizing prev h with
  | nil =>
      intro p hp
      cases hp
  | cons p ps ih =>
      obtain ⟨-, hp, -, hrest⟩ := hseg
      intro x hx
      rcases List.mem_cons.mp hx with rfl | hx
      · exact hp
      · exact ih hrest x hx

/-- The first node, or what the segment leads to. -/
theorem Seg.head (hseg : Seg m q prev h ps) : h = q ∨ h ∈ ps := by
  cases ps with
  | nil => exact .inl hseg
  | cons p ps =>
      obtain ⟨rfl, -⟩ := hseg
      exact .inr List.mem_cons_self

theorem seg_append : Seg m q prev h (ps ++ qs) ↔
    ∃ x, Seg m x prev h ps ∧ Seg m q (ps.getLastD prev) x qs := by
  induction ps generalizing prev h with
  | nil =>
      constructor
      · intro hseg
        exact ⟨h, rfl, hseg⟩
      · intro ⟨x, hx, hseg⟩
        cases hx
        exact hseg
  | cons p ps ih =>
      rw [List.cons_append, Seg, ih, List.getLastD_cons]
      constructor
      · intro ⟨hp, hne, hprev, x, hps, hqs⟩
        exact ⟨x, ⟨hp, hne, hprev, hps⟩, hqs⟩
      · intro ⟨x, ⟨hp, hne, hprev, hps⟩, hqs⟩
        exact ⟨hp, hne, hprev, x, hps, hqs⟩

/-- The end of a segment is led elsewhere. -/
theorem Seg.setSucc (hseg : Seg m q prev h (ps ++ [x])) (hx : ∀ p ∈ ps, Apart p x)
    (hv : v < 2 ^ 32) : Seg (setSucc m x v) v prev h (ps ++ [x]) := by
  obtain ⟨y, hps, hy, hne, hpred, -⟩ := seg_append.mp hseg
  refine seg_append.mpr ⟨y, hps.frame (frame_setSucc (List.mem_singleton_self x)) ?_, hy, hne, ?_, ?_⟩
  · intro p hp r hr
    rw [List.mem_singleton.mp hr]
    exact hx p hp
  · rw [pred_setSucc]
    exact hpred
  · exact succ_setSucc hv

/-- The front of a segment gets another predecessor. -/
theorem Seg.setPred (hseg : Seg m q prev h (x :: ps)) (hx : ∀ p ∈ ps, Apart p x)
    (hv : v < 2 ^ 32) : Seg (setPred m x v) q v h (x :: ps) := by
  obtain ⟨hh, hne, -, hps⟩ := hseg
  refine ⟨hh, hne, pred_setPred hv, ?_⟩
  rw [succ_setPred]
  refine hps.frame (frame_setPred (List.mem_singleton_self x)) ?_
  intro p hp r hr
  rw [List.mem_singleton.mp hr]
  exact hx p hp

/-! ## Taking a node out -/

/-- The neighbours of `p` are linked to each other. -/
def unlink (m : Mem) (p : Nat) : Mem :=
  let m := if pred m p ≠ 0 then setSucc m (pred m p) (succ m p) else m
  if succ m p ≠ 0 then setPred m (succ m p) (pred m p) else m

/-- The first half: whatever stands before `p` leads past it. -/
theorem Seg.skip (hseg : Seg m p 0 h ps) (hp : pred m p = ps.getLastD 0)
    (hs : succ m p < 2 ^ 32) (hps : ps.Pairwise Apart) (happ : ∀ x ∈ ps, Apart x p) :
    Seg (if pred m p ≠ 0 then Links.setSucc m (pred m p) (succ m p) else m) (succ m p) 0
        (if pred m p ≠ 0 then h else succ m p) ps ∧
      Frame m (if pred m p ≠ 0 then Links.setSucc m (pred m p) (succ m p) else m) ps := by
  rcases List.eq_nil_or_concat ps with rfl | ⟨ps', x, rfl⟩
  · have hnull : pred m p = 0 := hp
    rw [if_neg (not_not_intro hnull), if_neg (not_not_intro hnull)]
    exact ⟨rfl, Frame.refl _ _⟩
  · rw [List.concat_eq_append] at hseg hp hps happ ⊢
    rw [List.getLastD_concat] at hp
    have hx : x ≠ 0 := hseg.ne_zero x (by simp)
    rw [hp, if_pos hx, if_pos hx]
    refine ⟨hseg.setSucc (fun y hy => ?_) hs, frame_setSucc (by simp)⟩
    exact (List.pairwise_append.mp hps).2.2 y hy x (List.mem_singleton_self x)

theorem DList.unlink (hlist : DList m h (ps ++ p :: qs)) (hapart : (ps ++ p :: qs).Pairwise Apart)
    (hlt : ∀ x ∈ ps ++ p :: qs, x < 2 ^ 32) :
    DList (unlink m p) (if pred m p ≠ 0 then h else succ m p) (ps ++ qs) ∧
      Frame m (unlink m p) (ps ++ qs) := by
  obtain ⟨hps, hpqs, hcross⟩ := List.pairwise_append.mp hapart
  obtain ⟨hpq, hqs⟩ := List.pairwise_cons.mp hpqs
  obtain ⟨y, hfront, rfl, hne, hpred, hback⟩ := seg_append.mp hlist
  have hsucc : succ m y < 2 ^ 32 := by
    rcases hback.head with hnull | hmem
    · rw [hnull]
      decide
    · exact hlt _ (by simp [hmem])
  have hprev : pred m y < 2 ^ 32 := by
    rw [hpred]
    rcases List.eq_nil_or_concat ps with rfl | ⟨ps', x, rfl⟩
    · decide
    · rw [List.concat_eq_append, List.getLastD_concat]
      exact hlt x (by simp)
  obtain ⟨hskip, hframe⟩ := hfront.skip hpred hsucc hps fun x hx => hcross x hx y List.mem_cons_self
  rw [Links.unlink]
  generalize hm₁ : (if pred m y ≠ 0 then setSucc m (pred m y) (succ m y) else m) = m₁ at hskip hframe
  obtain ⟨hpred₁, hsucc₁⟩ := hframe.links fun x hx => (hcross x hx y List.mem_cons_self).symm
  have hback₁ : Seg m₁ 0 y (succ m y) qs := hback.frame hframe fun x hx z hz =>
    (hcross z hz x (List.mem_cons_of_mem _ hx)).symm
  simp only [hpred₁, hsucc₁]
  -- the second half: whatever stands behind gets the predecessor of `y`
  cases qs with
  | nil =>
      have hnull : succ m y = 0 := hback
      rw [hnull] at hskip
      rw [hnull, if_neg (not_not_intro rfl), List.append_nil]
      exact ⟨hskip, hframe⟩
  | cons z qs =>
      obtain ⟨hz, hzne, -⟩ := id hback
      rw [hz] at hskip hback₁ ⊢
      rw [if_pos hzne]
      obtain ⟨hzq, -⟩ := List.pairwise_cons.mp hqs
      refine ⟨seg_append.mpr ⟨z, hskip.frame (frame_setPred (List.mem_singleton_self z)) ?_, ?_⟩,
        (hframe.mono ?_).trans (frame_setPred (by simp))⟩
      · intro x hx r hr
        rw [List.mem_singleton.mp hr]
        exact hcross x hx z (by simp)
      · rw [← hpred]
        exact hback₁.setPred (fun x hx => (hzq x hx).symm) hprev
      · exact fun x hx => List.mem_append_left _ hx

/-! ## Putting a node in front -/

/-- `p` in front of the list at `h`. -/
def push (m : Mem) (h p : Nat) : Mem :=
  let m := setSucc m p h
  let m := setPred m p 0
  if h ≠ 0 then setPred m h p else m

theorem DList.push (hlist : DList m h ps) (hne : p ≠ 0) (hp : p < 2 ^ 32)
    (hapart : ps.Pairwise Apart) (hlt : ∀ x ∈ ps, x < 2 ^ 32) (hx : ∀ x ∈ ps, Apart p x) :
    DList (push m h p) p (p :: ps) ∧ Frame m (push m h p) (p :: ps) := by
  have hh : h < 2 ^ 32 := by
    rcases hlist.head with hnull | hmem
    · rw [hnull]
      decide
    · exact hlt h hmem
  have hframe : Frame m (setPred (setSucc m p h) p 0) [p] :=
    (frame_setSucc (List.mem_singleton_self p)).trans (frame_setPred (List.mem_singleton_self p))
  have hlinks : pred (setPred (setSucc m p h) p 0) p = 0 ∧
      succ (setPred (setSucc m p h) p 0) p = h := by
    refine ⟨pred_setPred (by decide), ?_⟩
    rw [succ_setPred]
    exact succ_setSucc hh
  have hrest : Seg (setPred (setSucc m p h) p 0) 0 0 h ps := hlist.frame hframe fun x hx' r hr => by
    rw [List.mem_singleton.mp hr]
    exact (hx x hx').symm
  rw [Links.push]
  generalize setPred (setSucc m p h) p 0 = m₁ at hframe hlinks hrest
  cases ps with
  | nil =>
      have hnull : h = 0 := hrest
      rw [hnull] at hlinks
      rw [if_neg (not_not_intro hnull)]
      exact ⟨⟨rfl, hne, hlinks.1, hlinks.2⟩, hframe⟩
  | cons y ps =>
      obtain ⟨rfl, hyne, -⟩ := id hrest
      obtain ⟨hyq, -⟩ := List.pairwise_cons.mp hapart
      rw [if_pos hyne]
      have hsame := (frame_setPred (m := m₁) (v := p) (List.mem_singleton_self h)).links
        (x := p) fun r hr => by
          rw [List.mem_singleton.mp hr]
          exact hx h List.mem_cons_self
      refine ⟨⟨rfl, hne, hsame.1.trans hlinks.1, ?_⟩,
        (hframe.mono ?_).trans (frame_setPred (by simp))⟩
      · rw [hsame.2, hlinks.2]
        exact hrest.setPred (fun x hx' => (hyq x hx').symm) hp
      · intro x hx'
        rw [List.mem_singleton.mp hx']
        exact List.mem_cons_self

end CKernel.Links
