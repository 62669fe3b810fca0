/-
# `CKernel.Conc.EpollCoroutines` — the event loop of `04_epoll_coroutines.cpp`

A coroutine waits for a descriptor by a `Waiter`, which registers its handle under a
new token; `run` fetches batches of events and resumes the handle under the token of
each, if it is still there.  What a resumed coroutine does is any further steps: it
may register, destroy waiters, call `run` again, or end `run` by an exception.

Of the kernel nothing is assumed but that `epoll_wait` returns a batch: an event may
carry the token of a wait that was cancelled or resumed, before or after the batch was
fetched, and `EPOLL_CTL_ADD` may fail.  A waiter may be awaited while it waits: where
`EPOLL_CTL_ADD` takes its descriptor again it has the new token only, and its destructor
forgets the wait before (`Overtaken`).

    steps keep what the table of waits says                    (`step_inv`)
    in every run, each resumption is the one of its wait, and
    not after the end of its waiter, if not overtaken          (`resumed_by_own_event`)
    an overtaken wait is resumed after the end of its waiter   (`overtaken_outlives`)
-/
import CKernel.Lib.Run

namespace CKernel.Conc.Epoll

open Run

/-! ## The code -/

/-- `EventLoop::Registration` -/
structure Registration where
  fd : Nat
  handle : Nat
  deriving DecidableEq, Repr

/-- `EventLoop::Waiter`, and whether it is still there. -/
structure Waiter where
  fd : Nat
  token : Nat := 0
  alive : Bool := true
  deriving DecidableEq, Repr

/-- What has happened: a wait of a waiter was registered, a batch of events fetched, a
handle resumed for the event of a token, a waiter destroyed. -/
inductive Happening where
  | watched (token waiter handle : Nat)
  | fetched (batch : List Nat)
  | resumed (token handle : Nat)
  | destroyed (waiter : Nat)
  deriving DecidableEq, Repr

/-- The loop: `frames` holds for each `run` under way the tokens of the events it has
fetched and not looked at, innermost first.  `watches` counts the calls of `watch`. -/
structure EventLoop where
  nextToken : Nat
  waiting : AList fun _ : Nat => Registration
  waiters : List Waiter
  frames : List (List Nat)
  watches : Nat
  log : List Happening

namespace EventLoop

def make : EventLoop := ⟨1, ∅, [], [], 0, []⟩

/-- `waiting_.emplace(token, registration)` -/
def emplace (waiting : AList fun _ : Nat => Registration) (token : Nat) (r : Registration) :
    AList fun _ : Nat => Registration :=
  if (waiting.lookup token).isSome then waiting else waiting.insert token r

/-- `watch(fd, events, h)`; where `EPOLL_CTL_ADD` fails it throws. -/
def watch (s : EventLoop) (fd h : Nat) (added : Bool) : EventLoop × Option Nat :=
  let token := s.nextToken
  let s := { s with
    nextToken := (token + 1) % 2 ^ 64
    watches := s.watches + 1
    waiting := emplace s.waiting token ⟨fd, h⟩ }
  if added then (s, some token)
  else ({ s with waiting := s.waiting.erase token }, none)

/-- `cancel(token)`; what `EPOLL_CTL_DEL` does is the kernel's. -/
def cancel (s : EventLoop) (token : Nat) : EventLoop :=
  { s with waiting := s.waiting.erase token }

/-- `await_suspend(h)` of the `w`-th waiter. -/
def awaitSuspend (s : EventLoop) (w h : Nat) (added : Bool) : Option EventLoop := do
  let waiter ← s.waiters[w]?
  if waiter.alive then
    match s.watch waiter.fd h added with
    | (s, none) => some s
    | (s, some token) =>
        some { s with
          waiters := s.waiters.set w { waiter with token }
          log := s.log ++ [.watched token w h] }
  else none

/-- `~Waiter()` of the `w`-th waiter. -/
def destroy (s : EventLoop) (w : Nat) : Option EventLoop := do
  let waiter ← s.waiters[w]?
  if waiter.alive then
    let s := s.cancel waiter.token
    some { s with
      waiters := s.waiters.set w { waiter with alive := false }
      log := s.log ++ [.destroyed w] }
  else none

/-- `std::array<epoll_event, 16>` -/
def maxEvents : Nat := 16

/-- `epoll_wait` in the innermost `run`, which is at the head of its loop. -/
def wait (s : EventLoop) (batch : List Nat) : Option EventLoop :=
  match s.frames with
  | [] :: frames =>
      if s.waiting.entries ≠ [] ∧ batch ≠ [] ∧ batch.length ≤ maxEvents then
        some { s with frames := batch :: frames, log := s.log ++ [.fetched batch] }
      else none
  | _ => none

/-- The next event of the batch. -/
def event (s : EventLoop) : Option EventLoop :=
  match s.frames with
  | (token :: batch) :: frames =>
      let s := { s with frames := batch :: frames }
      match s.waiting.lookup token with
      | none => some s
      | some r =>
          let s := s.cancel token
          some { s with log := s.log ++ [.resumed token r.handle] }
  | _ => none

/-! ## Runs -/

/-- `readable(fd)` or `writable(fd)`, `co_await` on a waiter, its destruction; a call of
`run`, its `epoll_wait`, its next event, its end. -/
inductive Op where
  | waiter (fd : Nat)
  | await (w h : Nat) (added : Bool)
  | destroy (w : Nat)
  | enter
  | wait (batch : List Nat)
  | event
  | leave
  deriving DecidableEq, Repr

def step (s : EventLoop) : Op → Option EventLoop
  | .waiter fd => some { s with waiters := s.waiters ++ [{ fd }] }
  | .await w h added => s.awaitSuspend w h added
  | .destroy w => s.destroy w
  | .enter => some { s with frames := [] :: s.frames }
  | .wait batch => s.wait batch
  | .event => s.event
  | .leave => if s.frames = [] then none else some { s with frames := s.frames.tail }

def Op.isAwait : Op → Bool
  | .await _ _ _ => true
  | _ => false

/-! ## What the results say -/

/-- The waiter was awaited again, after the wait of the token. -/
def Overtaken (log : List Happening) (token w : Nat) : Prop :=
  ∃ earlier later h token' h',
    log = earlier ++ .watched token w h :: later ∧ .watched token' w h' ∈ later

/-- A token is new when it is registered.  A resumption is for a wait with the token of
the event, of a waiter that is not destroyed if the wait is not overtaken; it is the
first for this token; and the event was fetched. -/
def Rightful (before : List Happening) : Happening → Prop
  | .watched token _ _ => ∀ w h, .watched token w h ∉ before
  | .resumed token handle =>
      (∃ w, .watched token w handle ∈ before ∧
          (.destroyed w ∈ before → Overtaken before token w)) ∧
        (∀ h, .resumed token h ∉ before) ∧ ∃ batch, .fetched batch ∈ before ∧ token ∈ batch
  | _ => True

/-! ## The invariant -/

/-- While the counter has not come round. -/
structure Kept (s : EventLoop) : Prop where
  nextToken : s.nextToken = (s.watches + 1) % 2 ^ 64
  issued : ∀ t w h, .watched t w h ∈ s.log → 0 < t ∧ t ≤ s.watches
  waiting : ∀ t r, s.waiting.lookup t = some r → ∃ w waiter,
    .watched t w r.handle ∈ s.log ∧ s.waiters[w]? = some waiter ∧
      (waiter.alive = true ∧ waiter.token = t ∨ Overtaken s.log t w) ∧
      ∀ h, .resumed t h ∉ s.log
  destroyed : ∀ w, .destroyed w ∈ s.log →
    ∃ waiter, s.waiters[w]? = some waiter ∧ waiter.alive = false
  frames : ∀ batch ∈ s.frames, ∀ t ∈ batch, ∃ b, .fetched b ∈ s.log ∧ t ∈ b
  recorded : Recorded Rightful s.log

def Inv (s : EventLoop) : Prop := s.watches < 2 ^ 64 → Kept s

variable {s s' : EventLoop} {t w h : Nat}

theorem Overtaken.append {log : List Happening} (ho : Overtaken log t w)
    (more : List Happening) : Overtaken (log ++ more) t w := by
  obtain ⟨earlier, later, h, t', h', rfl, hmem⟩ := ho
  refine ⟨earlier, later ++ more, h, t', h', ?_, List.mem_append_left _ hmem⟩
  rw [List.append_assoc, List.cons_append]

/-- A new wait overtakes the others of its waiter. -/
theorem overtaken_concat {log : List Happening} {t' h' : Nat}
    (hmem : .watched t w h ∈ log) : Overtaken (log ++ [.watched t' w h']) t w := by
  obtain ⟨earlier, later, rfl⟩ := List.append_of_mem hmem
  refine ⟨earlier, later ++ [.watched t' w h'], h, t', h', ?_,
    List.mem_append_right _ (List.mem_singleton.mpr rfl)⟩
  rw [List.append_assoc, List.cons_append]

theorem kept_make : Kept make := by
  refine ⟨rfl, ?_, ?_, ?_, ?_, recorded_nil⟩
  · intro t w h hmem
    cases hmem
  · intro t r hlookup
    cases hlookup
  · intro w hmem
    cases hmem
  · intro batch hmem
    cases hmem

/-- What was resumed had been registered. -/
theorem Kept.resumed_le (hk : Kept s) (hmem : .resumed t h ∈ s.log) : t ≤ s.watches := by
  obtain ⟨before, hsub, ⟨w, hwatched, -⟩, -⟩ := hk.recorded.of_mem hmem
  exact (hk.issued t w h (hsub hwatched)).2

/-- A token above those issued is not in the table. -/
theorem Kept.lookup_new (hk : Kept s) (ht : s.watches < t) : s.waiting.lookup t = none := by
  cases hlookup : s.waiting.lookup t with
  | none => rfl
  | some r =>
      obtain ⟨w, waiter, hwatched, -⟩ := hk.waiting t r hlookup
      exact absurd (hk.issued t w r.handle hwatched).2 (Nat.not_le_of_lt ht)

theorem lookup_erase_some {m : AList fun _ : Nat => Registration} {k : Nat} {r : Registration}
    (hlookup : (m.erase k).lookup t = some r) : t ≠ k ∧ m.lookup t = some r := by
  by_cases hk : t = k
  · rw [hk, AList.lookup_erase] at hlookup
    cases hlookup
  · rw [AList.lookup_erase_ne hk] at hlookup
    exact ⟨hk, hlookup⟩

theorem lookup_emplace_ne {m : AList fun _ : Nat => Registration} {k : Nat} {r : Registration}
    (ht : t ≠ k) : (emplace m k r).lookup t = m.lookup t := by
  rw [emplace]
  split
  · rfl
  · exact AList.lookup_insert_ne ht

theorem lookup_emplace_new {m : AList fun _ : Nat => Registration} {r : Registration}
    (hnew : m.lookup t = none) : (emplace m t r).lookup t = some r := by
  rw [emplace, hnew, if_neg (by decide), AList.lookup_insert]

/-! ## Changes of one part -/

/-- Fewer waits, and other frames with events that were fetched. -/
theorem Kept.shrink (hk : Kept s) {waiting : AList fun _ : Nat => Registration}
    (hwaiting : ∀ t r, waiting.lookup t = some r → s.waiting.lookup t = some r)
    {frames : List (List Nat)}
    (hframes : ∀ batch ∈ frames, ∀ t ∈ batch, ∃ b, .fetched b ∈ s.log ∧ t ∈ b) :
    Kept { s with waiting, frames } :=
  ⟨hk.nextToken, hk.issued, fun t r hlookup => hk.waiting t r (hwaiting t r hlookup),
    hk.destroyed, hframes, hk.recorded⟩

theorem Kept.cancel (hk : Kept s) (token : Nat) : Kept (s.cancel token) :=
  hk.shrink (fun _ _ hlookup => (lookup_erase_some hlookup).2) hk.frames

/-- One more entry of the log: a registration under a token that was issued, a
resumption of what does not wait, the end of a waiter that is not alive. -/
theorem Kept.record (hk : Kept s) {e : Happening} (hrightful : Rightful s.log e)
    (hissued : ∀ t w h, e = .watched t w h → 0 < t ∧ t ≤ s.watches)
    (hresumed : ∀ t h, e = .resumed t h → s.waiting.lookup t = none)
    (hdestroyed : ∀ w, e = .destroyed w →
      ∃ waiter, s.waiters[w]? = some waiter ∧ waiter.alive = false) :
    Kept { s with log := s.log ++ [e] } := by
  refine ⟨hk.nextToken, ?_, ?_, ?_, ?_, recorded_concat.mpr ⟨hk.recorded, hrightful⟩⟩
  · intro t w h hmem
    rcases List.mem_append.mp hmem with hmem | hmem
    · exact hk.issued t w h hmem
    · exact hissued t w h (List.mem_singleton.mp hmem).symm
  · intro t r hlookup
    obtain ⟨w, waiter, hwatched, hwaiter, hheld, hfresh⟩ := hk.waiting t r hlookup
    refine ⟨w, waiter, List.mem_append_left _ hwatched, hwaiter,
      hheld.imp_right (·.append [e]), fun h hmem => ?_⟩
    rcases List.mem_append.mp hmem with hmem | hmem
    · exact hfresh h hmem
    · rw [hresumed t h (List.mem_singleton.mp hmem).symm] at hlookup
      cases hlookup
  · intro w hmem
    rcases List.mem_append.mp hmem with hmem | hmem
    · exact hk.destroyed w hmem
    · exact hdestroyed w (List.mem_singleton.mp hmem).symm
  · intro batch hbatch t ht
    obtain ⟨b, hb, htb⟩ := hk.frames batch hbatch t ht
    exact ⟨b, List.mem_append_left _ hb, htb⟩

/-- A call of `watch` takes the next token. -/
theorem Kept.take (hk : Kept s) (hfew : s.watches + 1 < 2 ^ 64) :
    s.nextToken = s.watches + 1 ∧
      Kept { s with nextToken := (s.nextToken + 1) % 2 ^ 64, watches := s.watches + 1 } := by
  have htoken : s.nextToken = s.watches + 1 := by
    rw [hk.nextToken, Nat.mod_eq_of_lt hfew]
  refine ⟨htoken, ?_, ?_, hk.waiting, hk.destroyed, hk.frames, hk.recorded⟩
  · rw [htoken]
  · intro t w h hmem
    obtain ⟨hpos, hle⟩ := hk.issued t w h hmem
    exact ⟨hpos, Nat.le_succ_of_le hle⟩

/-- A waiter that is alive is changed, where its wait is over or overtaken. -/
theorem Kept.setWaiter (hk : Kept s) {old : Waiter} (hold : s.waiters[w]? = some old)
    (halive : old.alive = true)
    (hidle : ∀ r, s.waiting.lookup old.token = some r →
      .watched old.token w r.handle ∈ s.log → Overtaken s.log old.token w) (new : Waiter) :
    Kept { s with waiters := s.waiters.set w new } := by
  refine ⟨hk.nextToken, hk.issued, ?_, ?_, hk.frames, hk.recorded⟩
  · intro t r hlookup
    obtain ⟨w', waiter, hwatched, hwaiter, hheld, hfresh⟩ := hk.waiting t r hlookup
    by_cases hw : w = w'
    · subst hw
      obtain rfl : old = waiter := Option.some.inj (hold.symm.trans hwaiter)
      have hovertaken : Overtaken s.log t w := by
        rcases hheld with ⟨-, rfl⟩ | hovertaken
        · exact hidle r hlookup hwatched
        · exact hovertaken
      exact ⟨w, new, hwatched, List.getElem?_set_self (List.getElem?_eq_some_iff.mp hold).1,
        .inr hovertaken, hfresh⟩
    · refine ⟨w', waiter, hwatched, ?_, hheld, hfresh⟩
      rw [List.getElem?_set_ne hw]
      exact hwaiter
  · intro w' hmem
    obtain ⟨waiter, hwaiter, hdead⟩ := hk.destroyed w' hmem
    have hne : w ≠ w' := by
      rintro rfl
      obtain rfl : old = waiter := Option.some.inj (hold.symm.trans hwaiter)
      rw [halive] at hdead
      cases hdead
    refine ⟨waiter, ?_, hdead⟩
    rw [List.getElem?_set_ne hne]
    exact hwaiter

/-- A wait that was recorded enters the table. -/
theorem Kept.enlist (hk : Kept s) {waiter : Waiter} {r : Registration}
    (hnew : s.waiting.lookup t = none) (hwatched : .watched t w r.handle ∈ s.log)
    (hwaiter : s.waiters[w]? = some waiter) (hheld : waiter.alive = true ∧ waiter.token = t)
    (hfresh : ∀ h, .resumed t h ∉ s.log) :
    Kept { s with waiting := emplace s.waiting t r } := by
  refine ⟨hk.nextToken, hk.issued, ?_, hk.destroyed, hk.frames, hk.recorded⟩
  intro t' r' hlookup
  by_cases ht : t' = t
  · subst ht
    rw [lookup_emplace_new hnew] at hlookup
    cases hlookup
    exact ⟨w, waiter, hwatched, hwaiter, .inl hheld, hfresh⟩
  · rw [lookup_emplace_ne ht] at hlookup
    exact hk.waiting t' r' hlookup

/-! ## Steps -/

theorem kept_waiter (hk : Kept s) (waiter : Waiter) :
    Kept { s with waiters := s.waiters ++ [waiter] } := by
  have hstays {w : Nat} {old : Waiter} (hw : s.waiters[w]? = some old) :
      (s.waiters ++ [waiter])[w]? = some old := by
    rw [List.getElem?_append_left (List.getElem?_eq_some_iff.mp hw).1]
    exact hw
  refine ⟨hk.nextToken, hk.issued, ?_, ?_, hk.frames, hk.recorded⟩
  · intro t r hlookup
    obtain ⟨w, old, hwatched, hwaiter, hrest⟩ := hk.waiting t r hlookup
    exact ⟨w, old, hwatched, hstays hwaiter, hrest⟩
  · intro w hmem
    obtain ⟨old, hwaiter, hdead⟩ := hk.destroyed w hmem
    exact ⟨old, hstays hwaiter, hdead⟩

/-- A registration that failed leaves the table as it was, under a new token. -/
theorem kept_watch_failed (hk : Kept s) (hfew : s.watches + 1 < 2 ^ 64) (fd h : Nat) :
    Kept (s.watch fd h false).1 := by
  refine (hk.take hfew).2.shrink (fun t r hlookup => ?_) hk.frames
  obtain ⟨hne, hlookup⟩ := lookup_erase_some hlookup
  rwa [lookup_emplace_ne hne] at hlookup

/-- A registration overtakes what its waiter waited for. -/
theorem kept_watch_added (hk : Kept s) (hfew : s.watches + 1 < 2 ^ 64) {waiter : Waiter}
    (hwaiter : s.waiters[w]? = some waiter) (halive : waiter.alive = true) (h : Nat) :
    Kept { (s.watch waiter.fd h true).1 with
      waiters := s.waiters.set w { waiter with token := s.nextToken }
      log := s.log ++ [.watched s.nextToken w h] } := by
  obtain ⟨htoken, htaken⟩ := hk.take hfew
  have hnew : s.watches < s.nextToken := htoken ▸ Nat.lt_succ_self _
  have hrightful : Rightful s.log (.watched s.nextToken w h) := by
    intro w' h' hmem
    exact absurd (hk.issued _ w' h' hmem).2 (Nat.not_le_of_lt hnew)
  have hrecorded := htaken.record hrightful
    (fun t w' h' he => by
      cases he
      rw [htoken]
      exact ⟨Nat.succ_pos _, Nat.le_refl _⟩)
    (fun _ _ he => by cases he) (fun _ he => by cases he)
  have hidle : ∀ r, s.waiting.lookup waiter.token = some r →
      .watched waiter.token w r.handle ∈ s.log ++ [.watched s.nextToken w h] →
      Overtaken (s.log ++ [.watched s.nextToken w h]) waiter.token w := by
    intro r hlookup hmem
    rcases List.mem_append.mp hmem with hmem | hmem
    · exact overtaken_concat hmem
    · have htaken : waiter.token = s.nextToken :=
        (Happening.watched.inj (List.mem_singleton.mp hmem)).1
      rw [htaken, hk.lookup_new hnew] at hlookup
      cases hlookup
  have hset := hrecorded.setWaiter hwaiter halive hidle { waiter with token := s.nextToken }
  refine hset.enlist (hk.lookup_new hnew) (List.mem_append_right _ (List.mem_singleton.mpr rfl))
    (List.getElem?_set_self (List.getElem?_eq_some_iff.mp hwaiter).1) ⟨halive, rfl⟩
    fun h' hmem => ?_
  rcases List.mem_append.mp hmem with hmem | hmem
  · exact absurd (hk.resumed_le hmem) (Nat.not_le_of_lt hnew)
  · cases List.mem_singleton.mp hmem

theorem awaitSuspend_inv {added : Bool} (hinv : Inv s)
    (hs : s.awaitSuspend w h added = some s') : s'.watches = s.watches + 1 ∧ Inv s' := by
  obtain ⟨waiter, hwaiter, hs⟩ := Option.bind_eq_some_iff.mp hs
  split at hs
  case isTrue halive =>
    cases added with
    | false =>
        cases hs
        refine ⟨rfl, fun hfew => ?_⟩
        have hfew : s.watches + 1 < 2 ^ 64 := hfew
        exact kept_watch_failed (hinv (Nat.lt_of_succ_lt hfew)) hfew waiter.fd h
    | true =>
        cases hs
        refine ⟨rfl, fun hfew => ?_⟩
        have hfew : s.watches + 1 < 2 ^ 64 := hfew
        exact kept_watch_added (hinv (Nat.lt_of_succ_lt hfew)) hfew hwaiter halive h
  case isFalse => cases hs

theorem destroy_kept (hs : s.destroy w = some s') :
    s'.watches = s.watches ∧ (Kept s → Kept s') := by
  obtain ⟨waiter, hwaiter, hs⟩ := Option.bind_eq_some_iff.mp hs
  split at hs
  case isFalse => cases hs
  case isTrue halive =>
    cases hs
    refine ⟨rfl, fun hk => ?_⟩
    have hidle : ∀ r, (s.cancel waiter.token).waiting.lookup waiter.token = some r →
        .watched waiter.token w r.handle ∈ s.log → Overtaken s.log waiter.token w := by
      intro r hlookup
      rw [cancel, AList.lookup_erase] at hlookup
      cases hlookup
    have hset := (hk.cancel waiter.token).setWaiter hwaiter halive hidle
      { waiter with alive := false }
    refine hset.record trivial (fun _ _ _ he => by cases he) (fun _ _ he => by cases he)
      fun w' he => ?_
    cases he
    exact ⟨_, List.getElem?_set_self (List.getElem?_eq_some_iff.mp hwaiter).1, rfl⟩

theorem wait_kept {batch : List Nat} (hs : s.wait batch = some s') :
    s'.watches = s.watches ∧ (Kept s → Kept s') := by
  rw [wait] at hs
  split at hs
  case h_1 frames hframes =>
    split at hs
    case isTrue =>
      cases hs
      refine ⟨rfl, fun hk => ?_⟩
      have hfetched : Kept { s with log := s.log ++ [.fetched batch] } :=
        hk.record trivial (fun _ _ _ he => by cases he) (fun _ _ he => by cases he)
          fun _ he => by cases he
      refine hfetched.shrink (fun _ _ hlookup => hlookup) fun b hb t ht => ?_
      rcases List.mem_cons.mp hb with rfl | hb
      · exact ⟨b, List.mem_append_right _ (List.mem_singleton.mpr rfl), ht⟩
      · exact hfetched.frames b (hframes ▸ List.mem_cons_of_mem _ hb) t ht
    case isFalse => cases hs
  case h_2 => cases hs

/-- The wait of a token is resumed by right: its waiter is alive or it was overtaken,
nothing was resumed for it, and the event was fetched. -/
theorem Kept.rightful (hk : Kept s) {token : Nat} {r : Registration}
    (hlookup : s.waiting.lookup token = some r)
    (hfetched : ∃ b, .fetched b ∈ s.log ∧ token ∈ b) :
    Rightful s.log (.resumed token r.handle) := by
  obtain ⟨w, waiter, hwatched, hwaiter, hheld, hfresh⟩ := hk.waiting token r hlookup
  refine ⟨⟨w, hwatched, fun hmem => ?_⟩, hfresh, hfetched⟩
  obtain ⟨waiter', hwaiter', hdead⟩ := hk.destroyed w hmem
  obtain rfl : waiter = waiter' := Option.some.inj (hwaiter.symm.trans hwaiter')
  rcases hheld with ⟨halive, -⟩ | hovertaken
  · rw [halive] at hdead
    cases hdead
  · exact hovertaken

theorem event_kept (hs : s.event = some s') : s'.watches = s.watches ∧ (Kept s → Kept s') := by
  rw [event] at hs
  split at hs
  case h_1 token batch frames hframes =>
    have hpopped (hk : Kept s) : Kept { s with frames := batch :: frames } := by
      refine hk.shrink (fun _ _ hlookup => hlookup) fun b hb t ht => ?_
      rcases List.mem_cons.mp hb with rfl | hb
      · exact hk.frames (token :: b) (hframes ▸ List.mem_cons_self) t (List.mem_cons_of_mem _ ht)
      · exact hk.frames b (hframes ▸ List.mem_cons_of_mem _ hb) t ht
    dsimp only at hs
    split at hs
    case h_1 =>
      cases hs
      exact ⟨rfl, hpopped⟩
    case h_2 r hlookup =>
      cases hs
      refine ⟨rfl, fun hk => ?_⟩
      have hfetched := hk.frames (token :: batch) (hframes ▸ List.mem_cons_self) token
        List.mem_cons_self
      refine ((hpopped hk).cancel token).record (hk.rightful hlookup hfetched)
        (fun _ _ _ he => by cases he) (fun t h he => ?_) fun _ he => by cases he
      cases he
      exact AList.lookup_erase _ _
  case h_2 => cases hs

theorem leave_kept (hs : step s .leave = some s') :
    s'.watches = s.watches ∧ (Kept s → Kept s') := by
  rw [step] at hs
  split at hs
  case isTrue => cases hs
  case isFalse =>
    cases hs
    refine ⟨rfl, fun hk => hk.shrink (fun _ _ hlookup => hlookup) fun b hb => ?_⟩
    exact hk.frames b (List.mem_of_mem_tail hb)

/-- A step that calls no `watch`. -/
theorem Inv.of_kept (hinv : Inv s) (h : s'.watches = s.watches ∧ (Kept s → Kept s')) :
    s'.watches = s.watches ∧ Inv s' :=
  ⟨h.1, fun hfew => h.2 (hinv (h.1 ▸ hfew))⟩

/-- A step counts its call of `watch`, and keeps what the table says. -/
theorem step_inv {op : Op} (hinv : Inv s) (hs : step s op = some s') :
    s'.watches = s.watches + (if op.isAwait then 1 else 0) ∧ Inv s' := by
  cases op with
  | waiter fd =>
      cases hs
      exact hinv.of_kept ⟨rfl, fun hk => kept_waiter hk _⟩
  | await w h added => exact awaitSuspend_inv hinv hs
  | destroy w => exact hinv.of_kept (destroy_kept hs)
  | enter =>
      cases hs
      refine hinv.of_kept ⟨rfl, fun hk => hk.shrink (fun _ _ hlookup => hlookup) fun b hb => ?_⟩
      rcases List.mem_cons.mp hb with rfl | hb
      · intro t ht
        cases ht
      · exact hk.frames b hb
  | wait batch => exact hinv.of_kept (wait_kept hs)
  | event => exact hinv.of_kept (event_kept hs)
  | leave => exact hinv.of_kept (leave_kept hs)

/-! ## Runs -/

theorem run_inv {ops : List Op} (hinv : Inv s) (hrun : run step s ops = some s') :
    s'.watches = s.watches + ops.countP Op.isAwait ∧ Inv s' := by
  induction ops generalizing s with
  | nil =>
      cases hrun
      exact ⟨rfl, hinv⟩
  | cons op ops ih =>
      obtain ⟨s₁, hs₁, hrest⟩ := Option.bind_eq_some_iff.mp hrun
      obtain ⟨hwatches, hinv₁⟩ := step_inv hinv hs₁
      obtain ⟨hcount, hinv'⟩ := ih hinv₁ hrest
      refine ⟨?_, hinv'⟩
      rw [hcount, hwatches, List.countP_cons, Nat.add_assoc,
        Nat.add_comm (List.countP Op.isAwait ops)]

/-- In every run with fewer than 2^64 calls of `watch`, in the order in which things
happen: a handle is resumed for the event of a token that was fetched, the token of its
own registration, which was not resumed before, and whose waiter is not destroyed if it
was not awaited again since; and no token is registered twice. -/
theorem resumed_by_own_event (ops : List Op) (s : EventLoop) (hrun : run step make ops = some s)
    (hfew : ops.countP Op.isAwait < 2 ^ 64) :
    (∀ before after t h, s.log = before ++ .resumed t h :: after →
      (∃ w, .watched t w h ∈ before ∧ (.destroyed w ∈ before → Overtaken before t w)) ∧
        (∀ h', .resumed t h' ∉ before) ∧ ∃ batch, .fetched batch ∈ before ∧ t ∈ batch) ∧
      ∀ before after t w h, s.log = before ++ .watched t w h :: after →
        ∀ w' h', .watched t w' h' ∉ before := by
  obtain ⟨hcount, hinv⟩ := run_inv (fun _ => kept_make) hrun
  have hwatches : s.watches = ops.countP Op.isAwait := hcount.trans (Nat.zero_add _)
  have hrecorded := (hinv (hwatches ▸ hfew)).recorded
  exact ⟨fun before after t h => hrecorded before (.resumed t h) after,
    fun before after t w h => hrecorded before (.watched t w h) after⟩

/-- Two events are fetched; the coroutine resumed for the first destroys the other
waiter and waits again on its descriptor, and the second event is stale. -/
def staleEvent : List Op :=
  [.waiter 5, .await 0 100 true, .waiter 6, .await 1 200 true, .enter, .wait [1, 2], .event,
    .destroy 0, .destroy 1, .waiter 6, .await 2 100 true, .event, .wait [3], .event, .leave]

theorem isSome_staleEvent : (run step make staleEvent).isSome = true := by
  decide +kernel

theorem resumed_by_own_event_stale :
    ((run step make staleEvent).get isSome_staleEvent).log =
        [.watched 1 0 100, .watched 2 1 200, .fetched [1, 2], .resumed 1 100, .destroyed 0,
          .destroyed 1, .watched 3 2 100, .fetched [3], .resumed 3 100] ∧
      ∀ before after t h, ((run step make staleEvent).get isSome_staleEvent).log =
          before ++ .resumed t h :: after →
        (∃ w, .watched t w h ∈ before ∧ (.destroyed w ∈ before → Overtaken before t w)) ∧
          (∀ h', .resumed t h' ∉ before) ∧ ∃ batch, .fetched batch ∈ before ∧ t ∈ batch :=
  ⟨by decide +kernel,
    (resumed_by_own_event staleEvent _ (Option.some_get isSome_staleEvent).symm
      (by decide +kernel)).1⟩

/-- One waiter, awaited by two coroutines: the descriptor 5 is closed in between, and
reused for another file, while a duplicate keeps the first one open. -/
def awaitedTwice : List Op :=
  [.waiter 5, .await 0 100 true, .await 0 200 true, .destroy 0, .enter, .wait [1], .event]

/-- The first coroutine is resumed when the waiter is gone. -/
theorem overtaken_outlives :
    (run step make awaitedTwice).map (·.log) =
        some ([.watched 1 0 100, .watched 2 0 200, .destroyed 0, .fetched [1]] ++
          [.resumed 1 100]) ∧
      ¬ ∃ w, .watched 1 w 100 ∈
            [Happening.watched 1 0 100, .watched 2 0 200, .destroyed 0, .fetched [1]] ∧
          .destroyed w ∉
            [Happening.watched 1 0 100, .watched 2 0 200, .destroyed 0, .fetched [1]] := by
  refine ⟨by decide +kernel, ?_⟩
  rintro ⟨w, hwatched, halive⟩
  obtain rfl : w = 0 := by simpa using hwatched
  exact halive (by decide)

end EventLoop

end CKernel.Conc.Epoll
