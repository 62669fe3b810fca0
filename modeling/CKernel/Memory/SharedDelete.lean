/-
# `CKernel.Memory.SharedDelete` — a release and all that it deletes

`release` of a last owner runs a destructor, which releases the members of the object, and
so on.  `busy` are the handles that are being released, whose fields are still there but do
not count, and `dying` the objects whose destructors run.  All is compared with the state
`s₀` before the first `release`, that of `i₀`: what is deleted then is what `Dies` says.

    a release, with the deletions in it                       (`release_deletes`)
    a destructor, if its releases are such                    (`members_deleted`)
    a deletion, if they are                                   (`Deleting.destroyed`)
    what outlives a release is as it was                      (`releaseAll_ok`)
-/
import CKernel.Memory.SharedPtr

namespace CKernel.Memory.SharedPtrs

variable {s s' s₀ : SharedPtrs} {i i₀ j k : Nat} {h x : Handle} {busy ks : List Nat}
  {dying : List Handle} {c p : Nat}

/-! ## Slots -/

theorem get_eq_some : s.get i = some h ↔ s.handles[i]? = some (some h) := by
  rw [get]
  cases s.handles[i]? with
  | none => simp
  | some o => simp

theorem lt_of_get (hi : s.get i = some h) : i < s.handles.length :=
  (List.getElem?_eq_some_iff.mp (get_eq_some.mp hi)).1

theorem get_kill_self : (s.kill i).get i = none := by
  rw [kill, get, List.getElem?_set_self']
  cases s.handles[i]? with
  | none => rfl
  | some o => rfl

theorem get_kill_ne (hki : k ≠ i) : (s.kill i).get k = s.get k := by
  rw [kill, get, get, List.getElem?_set_ne (Ne.symm hki)]

theorem length_kill : (s.kill i).handles.length = s.handles.length := List.length_set

/-- A write to a handle that is there. -/
theorem put_ok (hi : s.get i = some x) :
    ∃ s', s.put i p c = some s' ∧ s'.blocks = s.blocks ∧ s'.passed = s.passed ∧
      s'.handles.length = s.handles.length ∧ s'.get i = some { x with ptr := p, control := c } ∧
      ∀ k, k ≠ i → s'.get k = s.get k := by
  have hput : s.put i p c =
      some { s with handles := s.handles.set i (some { x with ptr := p, control := c }) } := by
    rw [put, hi]
    rfl
  refine ⟨_, hput, rfl, rfl, List.length_set, ?_, fun k hki => ?_⟩
  · exact get_eq_some.mpr (List.getElem?_set_self (lt_of_get hi))
  · exact congrArg Option.join (List.getElem?_set_ne (Ne.symm hki))

/-- The handles that count: those that exist and are not being released. -/
def visible (s : SharedPtrs) (busy : List Nat) : List Handle :=
  (List.range s.handles.length).filterMap fun k => if k ∈ busy then none else s.get k

theorem mem_visible : h ∈ s.visible busy ↔ ∃ k, k ∉ busy ∧ s.get k = some h := by
  rw [visible, List.mem_filterMap]
  constructor
  · rintro ⟨k, -, hk⟩
    by_cases hbusy : k ∈ busy
    · rw [if_pos hbusy] at hk
      cases hk
    · exact ⟨k, hbusy, by rwa [if_neg hbusy] at hk⟩
  · rintro ⟨k, hbusy, hk⟩
    exact ⟨k, List.mem_range.mpr (lt_of_get hk), by rw [if_neg hbusy, hk]⟩

theorem visible_congr {busy' : List Nat} (hlen : s'.handles.length = s.handles.length)
    (h : ∀ k, (if k ∈ busy' then none else s'.get k) = if k ∈ busy then none else s.get k) :
    s'.visible busy' = s.visible busy := by
  rw [visible, visible, hlen]
  exact List.filterMap_congr fun k _ => h k

theorem visible_kill : (s.kill i).visible busy = s.visible (i :: busy) := by
  refine visible_congr length_kill fun k => ?_
  by_cases hki : k = i
  · rw [hki, get_kill_self, if_pos List.mem_cons_self, ite_self]
  · rw [get_kill_ne hki]
    simp [hki]

/-- The slot of a handle can be left out. -/
theorem visible_perm (hi : s.get i = some h) (hbusy : i ∉ busy) :
    (s.visible busy).Perm (h :: s.visible (i :: busy)) := by
  have hrange : (List.range s.handles.length).Perm (i :: (List.range s.handles.length).erase i) :=
    List.perm_cons_erase (List.mem_range.mpr (lt_of_get hi))
  have hrest : ((List.range s.handles.length).erase i).filterMap
      (fun k => if k ∈ busy then none else s.get k) =
      ((List.range s.handles.length).erase i).filterMap
        (fun k => if k ∈ i :: busy then none else s.get k) := by
    refine List.filterMap_congr fun k hk => ?_
    have hki : k ≠ i := fun h => (List.nodup_range.mem_erase_iff.mp hk).1 h
    simp [hki]
  have hleft := hrange.filterMap fun k => if k ∈ busy then none else s.get k
  have hright := hrange.filterMap fun k => if k ∈ i :: busy then none else s.get k
  rw [List.filterMap_cons_some (by rw [if_neg hbusy, hi]), hrest] at hleft
  rw [List.filterMap_cons, if_pos List.mem_cons_self] at hright
  exact hleft.trans (hright.symm.cons h)

theorem visible_nil : s.visible [] = s.live := by
  have hslots : (List.range s.handles.length).map (fun k => s.handles[k]?) =
      s.handles.map some := by
    refine List.ext_getElem (by simp) fun k hk hk' => ?_
    simp at hk
    simp [hk]
  have hjoin : ∀ k, (if k ∈ ([] : List Nat) then none else s.get k) =
      (Option.join ∘ fun k : Nat => s.handles[k]?) k := fun k => if_neg List.not_mem_nil
  rw [visible, live, List.filterMap_congr fun k _ => hjoin k, ← List.filterMap_map, hslots,
    List.filterMap_map]
  rfl

/-! ## During a release -/

/-- A handle that is released is the first one, or in an object that is being deleted. -/
def Inside (s₀ : SharedPtrs) (i₀ : Nat) (dying : List Handle) (i : Nat) (x : Handle) : Prop :=
  i = i₀ ∧ ¬ Dies s₀ i₀ x.home ∨ x.home ∈ dying.map Handle.ptr

/-- In the middle of a release of `i₀` from `s₀`. -/
structure Deleting (s₀ : SharedPtrs) (i₀ : Nat) (s : SharedPtrs) (busy : List Nat)
    (dying : List Handle) : Prop where
  inv : Inv (s.visible busy) dying s.blocks s.passed
  passed : s.passed = s₀.passed
  length : s.handles.length = s₀.handles.length
  nodup : busy.Nodup
  held : ∀ k ∈ busy, ∃ h, s.get k = some h ∧ Inside s₀ i₀ dying k h
  dies : ∀ d ∈ dying, Dies s₀ i₀ d.ptr
  same : ∀ k h, k ∉ busy → s.get k = some h → s₀.get k = some h
  lost : ∀ k h, k ≠ i₀ → s₀.get k = some h → s.get k = some h ∨ Dies s₀ i₀ h.home
  gone : ∀ p ∈ s.blocks.deleted, p ∈ s₀.blocks.deleted ∨ Dies s₀ i₀ p

/-- What a part of it keeps, but for the handles in `ks`: those being released, and those
in the objects whose destructors run.  It creates none. -/
structure Spares (s s' : SharedPtrs) (busy ks : List Nat) (dying : List Handle) : Prop where
  held : ∀ k ∈ busy, s'.get k = s.get k
  member : ∀ k h, k ∉ ks → s.get k = some h → h.home ∈ dying.map Handle.ptr → s'.get k = some h
  old : ∀ k h, k ∉ ks → s'.get k = some h → s.get k = some h

theorem Spares.refl : Spares s s busy ks dying :=
  ⟨fun _ _ => rfl, fun _ _ _ h _ => h, fun _ _ _ h => h⟩

/-- A destructor of a dying object has run. -/
theorem Deleting.mem_dying (hs : Deleting s₀ i₀ s busy dying)
    (hp : p ∈ dying.map Handle.ptr) : Dies s₀ i₀ p := by
  obtain ⟨d, hd, rfl⟩ := List.mem_map.mp hp
  exact hs.dies d hd

/-- A release that only changes counters. -/
theorem Deleting.counted {m : Blocks} {dying' : List Handle} (hs : Deleting s₀ i₀ s busy dying)
    (hbusy : i ∉ busy) (hi : s.get i = some x) (hin : Inside s₀ i₀ dying i x)
    (hinv : Inv (s.visible (i :: busy)) dying' m s.passed) (hdeleted : m.deleted = s.blocks.deleted)
    (hsub : dying ⊆ dying') (hdies : ∀ d ∈ dying', Dies s₀ i₀ d.ptr) :
    Deleting s₀ i₀ { s with blocks := m } (i :: busy) dying' := by
  refine ⟨hinv, hs.passed, hs.length, List.nodup_cons.mpr ⟨hbusy, hs.nodup⟩, fun k hk => ?_, hdies,
    fun k h hk => hs.same k h fun hk' => hk (List.mem_cons_of_mem _ hk'), hs.lost, ?_⟩
  · have hmono : dying.map Handle.ptr ⊆ dying'.map Handle.ptr := List.map_subset _ hsub
    rcases List.mem_cons.mp hk with rfl | hk
    · exact ⟨x, hi, hin.imp_right fun h => hmono h⟩
    · obtain ⟨h, hh, hhome⟩ := hs.held k hk
      exact ⟨h, hh, hhome.imp_right fun h => hmono h⟩
  · intro p hp
    rw [hdeleted] at hp
    exact hs.gone p hp

/-- The last owner: each handle there was on its object is gone, or going. -/
theorem Deleting.last_dies (hs : Deleting s₀ i₀ s busy dying) (hbusy : i ∉ busy)
    (hi : s.get i = some x) (hin : Inside s₀ i₀ dying i x) (hptr : x.ptr ≠ 0)
    (hlast : ∀ h ∈ s.visible (i :: busy), h.ptr ≠ x.ptr) : Dies s₀ i₀ x.ptr := by
  refine .last i x (hs.same i x hbusy hi) hptr fun l h hl hlptr hli => ?_
  rcases hs.lost l h hli hl with hlive | hdies
  · by_cases hl' : l ∈ i :: busy
    · refine hs.mem_dying ?_
      rcases List.mem_cons.mp hl' with rfl | hmem
      · cases hlive.symm.trans hi
        exact hin.resolve_left fun h => hli h.1
      · obtain ⟨h', hh', hhome⟩ := hs.held l hmem
        cases hlive.symm.trans hh'
        exact hhome.resolve_left fun h => hli h.1
    · exact absurd hlptr (hlast h (mem_visible.mpr ⟨l, hl', hlive⟩))
  · exact hdies

/-! ## A destructor -/

variable {T : Teardown} {fuel : Nat}

/-- What a release does in the middle of one: it returns, the handle is still there, and
its fields count no more. -/
def Releases (T : Teardown) (fuel : Nat) (s₀ : SharedPtrs) (i₀ : Nat) : Prop :=
  ∀ {s busy dying i x}, Deleting s₀ i₀ s busy dying → i ∉ busy → s.get i = some x →
    Inside s₀ i₀ dying i x → s₀.handles.length < fuel + busy.length →
    ∃ s' x', release T fuel s i = some s' ∧ Deleting s₀ i₀ s' (i :: busy) dying ∧
      Spares s s' busy [i] dying ∧ s'.get i = some x' ∧ x'.home = x.home

/-- A member that has been released is destroyed. -/
theorem Deleting.kill (hs : Deleting s₀ i₀ s (i :: busy) dying) (hdies : ∀ h,
    s₀.get i = some h → Dies s₀ i₀ h.home) : Deleting s₀ i₀ (s.kill i) busy dying := by
  obtain ⟨hi, hnodup⟩ := List.nodup_cons.mp hs.nodup
  refine ⟨?_, hs.passed, length_kill.trans hs.length, hnodup, fun k hk => ?_, hs.dies,
    fun k h hk hget => ?_, fun k h hk hget => ?_, hs.gone⟩
  · rw [visible_kill]
    exact hs.inv
  · have hki : k ≠ i := fun h => hi (h ▸ hk)
    rw [get_kill_ne hki]
    exact hs.held k (List.mem_cons_of_mem _ hk)
  · have hki : k ≠ i := by
      rintro rfl
      rw [get_kill_self] at hget
      cases hget
    rw [get_kill_ne hki] at hget
    exact hs.same k h (fun hk' => (List.mem_cons.mp hk').elim hki hk) hget
  · by_cases hki : k = i
    · subst hki
      exact .inr (hdies h hget)
    · rw [get_kill_ne hki]
      exact hs.lost k h hk hget

/-- The members of an object, one after the other. -/
theorem members_deleted (hrelease : Releases T fuel s₀ i₀) (ks : List Nat)
    (hs : Deleting s₀ i₀ s busy dying) (hks : ks.Nodup) (hp : p ∈ dying.map Handle.ptr)
    (hmem : ∀ k ∈ ks, k ∉ busy ∧ ∃ h, s.get k = some h ∧ h.home = p)
    (hfuel : s₀.handles.length < fuel + busy.length) :
    ∃ s', ks.foldlM (fun s k => (release T fuel s k).map fun s => s.kill k) s = some s' ∧
      Deleting s₀ i₀ s' busy dying ∧ Spares s s' busy ks dying ∧ ∀ k ∈ ks, s'.get k = none := by
  induction ks generalizing s with
  | nil => exact ⟨s, rfl, hs, .refl, fun k hk => nomatch hk⟩
  | cons k ks ih =>
      obtain ⟨hk, hnodup⟩ := List.nodup_cons.mp hks
      obtain ⟨hbusy, h, hget, hhome⟩ := hmem k List.mem_cons_self
      have hin : Inside s₀ i₀ dying k h := .inr (hhome ▸ hp)
      obtain ⟨s₁, -, hrun, hs₁, hspares, -⟩ := hrelease hs hbusy hget hin hfuel
      have hdies : ∀ h', s₀.get k = some h' → Dies s₀ i₀ h'.home := by
        intro h' hh'
        cases (hs.same k h hbusy hget).symm.trans hh'
        exact hs.mem_dying (hhome ▸ hp)
      have hne : ∀ l ∈ ks, l ≠ k := fun l hl hlk => hk (hlk ▸ hl)
      have hrest : ∀ l ∈ ks, l ∉ busy ∧ ∃ h, (s₁.kill k).get l = some h ∧ h.home = p := by
        intro l hl
        obtain ⟨hlbusy, h', hlget, hlhome⟩ := hmem l (List.mem_cons_of_mem _ hl)
        refine ⟨hlbusy, h', ?_, hlhome⟩
        rw [get_kill_ne (hne l hl)]
        refine hspares.member l h' (fun hlk => ?_) hlget (hlhome ▸ hp)
        exact hne l hl (List.mem_singleton.mp hlk)
      obtain ⟨s', hloop, hs', hspares', hgone⟩ := ih (hs₁.kill hdies) hnodup hrest
      refine ⟨s', ?_, hs', ⟨fun l hl => ?_, fun l h' hl hlget hlhome => ?_,
        fun l h' hl hlget => ?_⟩, fun l hl => ?_⟩
      · rw [List.foldlM_cons, hrun]
        exact hloop
      · have hlk : l ≠ k := fun hlk => hbusy (hlk ▸ hl)
        rw [hspares'.held l hl, get_kill_ne hlk, hspares.held l hl]
      · obtain ⟨hlk, hl⟩ := not_or.mp (fun hor => hl (List.mem_cons.mpr hor))
        refine hspares'.member l h' hl ?_ hlhome
        rw [get_kill_ne hlk]
        exact hspares.member l h' (fun h => hlk (List.mem_singleton.mp h)) hlget hlhome
      · obtain ⟨hlk, hl⟩ := not_or.mp (fun hor => hl (List.mem_cons.mpr hor))
        have hkilled := hspares'.old l h' hl hlget
        rw [get_kill_ne hlk] at hkilled
        exact hspares.old l h' (fun h => hlk (List.mem_singleton.mp h)) hkilled
      · rcases List.mem_cons.mp hl with rfl | hl
        · cases hnone : s'.get l with
          | none => rfl
          | some h' =>
              have hkilled := hspares'.old l h' hk hnone
              rw [get_kill_self] at hkilled
              cases hkilled
        · exact hgone l hl

/-! ## A release -/

theorem mem_members : k ∈ s.members p ↔ ∃ h, s.get k = some h ∧ h.home = p := by
  rw [members, List.mem_filter, Option.any_eq_true]
  constructor
  · rintro ⟨-, h, hget, hhome⟩
    exact ⟨h, hget, of_decide_eq_true hhome⟩
  · rintro ⟨h, hget, hhome⟩
    exact ⟨List.mem_range.mpr (lt_of_get hget), h, hget, decide_eq_true hhome⟩

theorem mem_order : k ∈ T.order p (s.members p) ↔ ∃ h, s.get k = some h ∧ h.home = p :=
  (T.perm p _).mem_iff.trans mem_members

theorem nodup_order : (T.order p (s.members p)).Nodup :=
  (T.perm p _).nodup_iff.mpr (List.nodup_range.filter _)

/-- The end of a deletion: the object is gone, and the handle that had it is null. -/
theorem Deleting.finish (hs : Deleting s₀ i₀ s (i :: busy) (x :: dying)) (hi : s.get i = some x)
    (hin : Inside s₀ i₀ dying i x) (hstart : s₀.get i = some x)
    (hwhole : ∀ k h, s.get k = some h → h.home ≠ x.ptr)
    (hheld : ∀ k ∈ busy, ∃ h, s.get k = some h ∧ Inside s₀ i₀ dying k h) :
    ∃ s', (((s.free x.ptr).setCnt x.control none).put i 0 0) = some s' ∧
      Deleting s₀ i₀ s' (i :: busy) dying ∧ s'.get i = some ⟨0, 0, x.home⟩ ∧
      ∀ k, k ≠ i → s'.get k = s.get k := by
  obtain ⟨s', hput, hblocks, hpassed, hlen, hself, hother⟩ :=
    @put_ok ((s.free x.ptr).setCnt x.control none) i x 0 0 hi
  refine ⟨s', hput, ⟨?_, hpassed.trans hs.passed, hlen.trans hs.length, hs.nodup, fun k hk => ?_,
    fun d hd => hs.dies d (List.mem_cons_of_mem _ hd), fun k h hk hget => ?_,
    fun k h hk hget => ?_, fun p hp => ?_⟩, hself, hother⟩
  · have hvisible : s'.visible (i :: busy) = s.visible (i :: busy) := by
      refine visible_congr hlen fun k => ?_
      by_cases hki : k = i
      · rw [hki, if_pos List.mem_cons_self, if_pos List.mem_cons_self]
      · rw [hother k hki]
        rfl
    rw [hvisible, hblocks, hpassed]
    refine hs.inv.finish fun h hh => ?_
    obtain ⟨k, -, hget⟩ := mem_visible.mp hh
    exact hwhole k h hget
  · by_cases hki : k = i
    · rw [hki]
      exact ⟨_, hself, hin⟩
    · rw [hother k hki]
      exact hheld k ((List.mem_cons.mp hk).resolve_left hki)
  · have hki : k ≠ i := fun h => hk (h ▸ List.mem_cons_self)
    rw [hother k hki] at hget
    exact hs.same k h hk hget
  · by_cases hki : k = i
    · subst hki
      cases hstart.symm.trans hget
      obtain ⟨d, hd, hptr⟩ := List.mem_map.mp (hin.resolve_left fun h => hk h.1)
      exact .inr (hptr ▸ hs.dies d (List.mem_cons_of_mem _ hd))
    · rw [hother k hki]
      exact hs.lost k h hk hget
  · rw [hblocks] at hp
    rcases List.mem_append.mp hp with hp | hp
    · exact hs.gone p hp
    · rw [List.mem_singleton.mp hp]
      exact .inr (hs.dies x List.mem_cons_self)

/-- A handle that is being released is in none of the objects that are deleted from then on. -/
theorem Inside.home_ne (hin : Inside s₀ i₀ dying i x) (hdies : Dies s₀ i₀ p)
    (hp : ∀ d ∈ dying, p ≠ d.ptr) : x.home ≠ p := by
  rintro rfl
  rcases hin with ⟨-, hout⟩ | hmem
  · exact hout hdies
  · obtain ⟨d, hd, hptr⟩ := List.mem_map.mp hmem
    exact hp d hd hptr.symm

/-- The handles that are being released are fewer than the handles. -/
theorem Deleting.length_lt (hs : Deleting s₀ i₀ s busy dying) (hbusy : i ∉ busy)
    (hi : s.get i = some x) : busy.length < s₀.handles.length := by
  have hsub : i :: busy ⊆ List.range s.handles.length := by
    intro k hk
    rcases List.mem_cons.mp hk with rfl | hk
    · exact List.mem_range.mpr (lt_of_get hi)
    · obtain ⟨h, hh, -⟩ := hs.held k hk
      exact List.mem_range.mpr (lt_of_get hh)
  have hle := ((List.nodup_cons.mpr ⟨hbusy, hs.nodup⟩).subperm hsub).length_le
  rw [List.length_cons, List.length_range, hs.length] at hle
  exact hle

/-- A deletion: the destructor runs, then the object and its control block are freed. -/
theorem Deleting.destroyed (hrelease : Releases T fuel s₀ i₀)
    (hs : Deleting s₀ i₀ s (i :: busy) (x :: dying)) (hi : s.get i = some x)
    (hin : Inside s₀ i₀ dying i x) (hstart : s₀.get i = some x)
    (hdying : ∀ d ∈ dying, x.ptr ≠ d.ptr)
    (hheld : ∀ k ∈ busy, ∃ h, s.get k = some h ∧ Inside s₀ i₀ dying k h)
    (hfuel : s₀.handles.length < fuel + (i :: busy).length) :
    ∃ s₁ s', (T.order x.ptr (s.members x.ptr)).foldlM
        (fun s k => (release T fuel s k).map fun s => s.kill k) s = some s₁ ∧
      s₁.get i = some x ∧ ((s₁.free x.ptr).setCnt x.control none).put i 0 0 = some s' ∧
      Deleting s₀ i₀ s' (i :: busy) dying ∧ Spares s s' busy [i] dying ∧
      s'.get i = some ⟨0, 0, x.home⟩ := by
  have hdies : Dies s₀ i₀ x.ptr := hs.dies x List.mem_cons_self
  have hnotBusy : i ∉ busy := (List.nodup_cons.mp hs.nodup).1
  have hmem : ∀ k ∈ T.order x.ptr (s.members x.ptr),
      k ∉ i :: busy ∧ ∃ h, s.get k = some h ∧ h.home = x.ptr := by
    intro k hk
    obtain ⟨h, hget, hhome⟩ := mem_order.mp hk
    refine ⟨fun hbusy' => ?_, h, hget, hhome⟩
    rcases List.mem_cons.mp hbusy' with rfl | hk'
    · cases hi.symm.trans hget
      exact hin.home_ne hdies hdying hhome
    · obtain ⟨h', hh', hin'⟩ := hheld k hk'
      cases hh'.symm.trans hget
      exact hin'.home_ne hdies hdying hhome
  obtain ⟨s₁, hloop, hs₁, hspares, hgone⟩ := members_deleted hrelease _ hs nodup_order
    (List.mem_map_of_mem List.mem_cons_self) hmem hfuel
  have hi₁ : s₁.get i = some x := (hspares.held i List.mem_cons_self).trans hi
  have hwhole : ∀ k h, s₁.get k = some h → h.home ≠ x.ptr := by
    intro k h hget hhome
    by_cases hk : k ∈ T.order x.ptr (s.members x.ptr)
    · exact nomatch (hgone k hk).symm.trans hget
    · exact hk (mem_order.mpr ⟨h, hspares.old k h hk hget, hhome⟩)
  obtain ⟨s', hput, hs', hself, hother⟩ := hs₁.finish hi₁ hin hstart hwhole fun k hk => by
    rw [hspares.held k (List.mem_cons_of_mem _ hk)]
    exact hheld k hk
  refine ⟨s₁, s', hloop, hi₁, hput, hs', ⟨fun k hk => ?_, fun k h hk hget hhome => ?_,
    fun k h hk hget => ?_⟩, hself⟩
  · have hki : k ≠ i := fun h => hnotBusy (h ▸ hk)
    rw [hother k hki]
    exact hspares.held k (List.mem_cons_of_mem _ hk)
  · rw [hother k (fun h => hk (List.mem_singleton.mpr h))]
    refine hspares.member k h (fun hk' => ?_) hget (List.mem_cons_of_mem _ hhome)
    obtain ⟨h', hget', hhome'⟩ := mem_order.mp hk'
    cases hget'.symm.trans hget
    obtain ⟨d, hd, hptr'⟩ := List.mem_map.mp hhome
    exact hdying d hd (hhome'.symm.trans hptr'.symm)
  · rw [hother k (fun h => hk (List.mem_singleton.mpr h))] at hget
    refine hspares.old k h (fun hk' => ?_) hget
    exact nomatch (hgone k hk').symm.trans hget

theorem release_deletes (fuel : Nat) : Releases T fuel s₀ i₀ := by
  induction fuel with
  | zero =>
      intro s busy dying i x hs hbusy hi _ hfuel
      have hlt := hs.length_lt hbusy hi
      omega
  | succ fuel ih =>
      intro s busy dying i x hs hbusy hi hin hfuel
      have hinv := hs.inv.perm (visible_perm hi hbusy)
      have hstart := hs.same i x hbusy hi
      rw [release, hi, Option.bind_eq_bind, Option.bind_some]
      by_cases hnull : x.control = 0
      · refine ⟨s, x, if_pos hnull, ?_, .refl, hi, rfl⟩
        exact hs.counted hbusy hi hin (hinv.drop_null hnull) rfl (List.Subset.refl _) hs.dies
      rw [if_neg hnull, hinv.refCnt_head hnull]
      simp only [Option.bind_eq_bind, Option.bind_some, hinv.wrapInt_sub hnull]
      by_cases hlast : owners (s.visible (i :: busy)) x.control = 0
      case neg =>
        have hne : ((owners (s.visible (i :: busy)) x.control : Nat) : Int) ≠ 0 :=
          Int.natCast_ne_zero.mpr hlast
        refine ⟨_, x, if_neg hne, ?_, ⟨fun _ _ => rfl, fun _ _ _ h _ => h, fun _ _ _ h => h⟩, hi,
          rfl⟩
        exact hs.counted hbusy hi hin (hinv.drop_shared hnull hlast) rfl (List.Subset.refl _)
          hs.dies
      rw [hlast, Nat.cast_zero, if_pos rfl]
      have hptr := hinv.ptr_ne_zero hnull
      have hdies : Dies s₀ i₀ x.ptr := by
        refine hs.last_dies hbusy hi hin hptr fun h hh hhptr => ?_
        have hmem : h ∈ x :: s.visible (i :: busy) ++ dying :=
          List.mem_append_left _ (List.mem_cons_of_mem _ hh)
        exact owners_eq_zero.mp hlast h hh ((hinv.pair h hmem x List.mem_cons_self).mp hhptr)
      -- the counter is zero, and the destructor runs
      have hs₁ : Deleting s₀ i₀ (s.setCnt x.control (some 0)) (i :: busy) (x :: dying) := by
        refine hs.counted hbusy hi hin (hinv.drop_last hnull hlast) rfl
          (List.subset_cons_self _ _) fun d hd => ?_
        rcases List.mem_cons.mp hd with rfl | hd
        · exact hdies
        · exact hs.dies d hd
      obtain ⟨s₂, s', hloop, hi₂, hput, hs', hspares, hself⟩ :=
        hs₁.destroyed ih hi hin hstart (fun d hd => hinv.ptr_ne_dying hd) hs.held
          (by rw [List.length_cons]; omega)
      refine ⟨s', _, ?_, hs', ⟨hspares.held, hspares.member, hspares.old⟩, hself, rfl⟩
      rw [hloop, Option.bind_some]
      show (s₂.get i).bind _ = _
      rw [hi₂]
      exact hput

/-! ## From outside -/

/-- The account of a state between two calls. -/
def Accounted (s : SharedPtrs) : Prop := Inv s.live [] s.blocks s.passed

/-- After a release of `i`, whose fields were `x`: they count no more, and what the release
does not delete is as it was. -/
structure Released (s : SharedPtrs) (i : Nat) (x : Handle) (s' : SharedPtrs) : Prop where
  inv : Inv (s'.visible [i]) [] s'.blocks s'.passed
  passed : s'.passed = s.passed
  self : ∃ x', s'.get i = some x' ∧ x'.home = x.home
  home : x.home ∉ s'.blocks.deleted
  other : ∀ k y, k ≠ i → s.get k = some y → ¬ Dies s i y.home → s'.get k = some y

theorem releaseAll_ok (T : Teardown) (hs : Accounted s) (hi : s.get i = some x)
    (hout : ¬ Dies s i x.home) : ∃ s', s.releaseAll T i = some s' ∧ Released s i x s' := by
  have hmem : x ∈ s.live := by
    rw [← visible_nil]
    exact mem_visible.mpr ⟨i, List.not_mem_nil, hi⟩
  have hstart : Deleting s i s [] [] := by
    refine ⟨?_, rfl, rfl, List.nodup_nil, fun k hk => (List.not_mem_nil hk).elim,
      fun d hd => (List.not_mem_nil hd).elim, fun k h _ h' => h', fun k h _ h' => .inl h',
      fun p hp => .inl hp⟩
    rw [visible_nil]
    exact hs
  obtain ⟨s', x', hrun, hs', -, hself, hhome⟩ := release_deletes (s.handles.length + 1) hstart
    List.not_mem_nil hi (.inl ⟨rfl, hout⟩) (Nat.lt_succ_self _)
  refine ⟨s', hrun, hs'.inv, hs'.passed, ⟨x', hself, hhome⟩, fun hgone => ?_,
    fun k y hki hk hdies => (hs'.lost k y hki hk).resolve_right hdies⟩
  exact (hs'.gone x.home hgone).elim (hs.whole x hmem) hout

end CKernel.Memory.SharedPtrs
