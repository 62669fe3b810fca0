/-
# `CKernel.Net.LoginMgr` — the login tables of `login_mgr.cpp`

`_online_users` maps a user to a session and `_session_to_user` a session to a
user; the header calls the second the reverse of the first.  A login writes both,
a logout erases from both, and neither looks at what was there.

    a login keeps the tables consistent, or not                (`handleLogin_iff`)
    a logout keeps them consistent, or not                     (`handleLogout_iff`)
    the states of a run are all consistent, or not             (`tables_consistent_iff`)
    two sessions of one user: the first logout ends the user   (`logout_forgets_session`)
-/
import CKernel.Lib.Run

namespace CKernel.Net

open Run

/-! ## The code -/

/-- The fields of `LogicMessage` that `handle_login` reads. -/
structure LogicMessage where
  sessionId : UInt64
  body : List UInt8

/-- The two `std::unordered_map`s: what a key is mapped to, if it is there. -/
structure LoginMgr where
  onlineUsers : UInt64 → Option UInt64
  sessionToUser : UInt64 → Option UInt64

namespace LoginMgr

def make : LoginMgr := ⟨fun _ => none, fun _ => none⟩

/-- `handle_login(msg)`; `hash` is `std::hash<std::string>`. -/
def handleLogin (hash : List UInt8 → UInt64) (m : LoginMgr) (msg : LogicMessage) : LoginMgr :=
  let userId := hash msg.body
  ⟨Function.update m.onlineUsers userId (some msg.sessionId),
    Function.update m.sessionToUser msg.sessionId (some userId)⟩

/-- `handle_logout(session_id)` -/
def handleLogout (m : LoginMgr) (sessionId : UInt64) : LoginMgr :=
  match m.sessionToUser sessionId with
  | none => m
  | some userId => ⟨Function.update m.onlineUsers userId none,
      Function.update m.sessionToUser sessionId none⟩

def isOnline (m : LoginMgr) (userId : UInt64) : Bool := (m.onlineUsers userId).isSome

inductive Op where
  | login (msg : LogicMessage)
  | logout (sessionId : UInt64)

def step (hash : List UInt8 → UInt64) (m : LoginMgr) : Op → Option LoginMgr
  | .login msg => some (handleLogin hash m msg)
  | .logout sessionId => some (handleLogout m sessionId)

/-! ## What the results say -/

/-- A user is online exactly when a session maps to it, and the session it is
online with maps back. -/
structure Consistent (m : LoginMgr) : Prop where
  online : ∀ u, isOnline m u = true ↔ ∃ s, m.sessionToUser s = some u
  back : ∀ u s, m.onlineUsers u = some s → m.sessionToUser s = some u

/-- A login does not take its session from another user that is online with it,
and a logout does not leave another session of its user behind. -/
def Spared (hash : List UInt8 → UInt64) (m : LoginMgr) : Op → Prop
  | .login msg => ∀ v, m.sessionToUser msg.sessionId = some v → v ≠ hash msg.body →
      m.onlineUsers v ≠ some msg.sessionId
  | .logout sessionId => ∀ u, m.sessionToUser sessionId = some u →
      ∀ t, m.sessionToUser t = some u → t = sessionId

theorem make_consistent : Consistent make := by
  refine ⟨fun u => ⟨fun h => ?_, fun ⟨s, h⟩ => ?_⟩, fun u s h => ?_⟩
  · cases h
  · cases h
  · cases h

variable {hash : List UInt8 → UInt64} {m : LoginMgr}

theorem isOnline_iff {u : UInt64} : isOnline m u = true ↔ ∃ s, m.onlineUsers u = some s :=
  Option.isSome_iff_exists

/-! ## One call -/

section Login
variable (hash m) (msg : LogicMessage)

theorem handleLogin_onlineUsers : (handleLogin hash m msg).onlineUsers =
    Function.update m.onlineUsers (hash msg.body) (some msg.sessionId) := rfl

theorem handleLogin_sessionToUser : (handleLogin hash m msg).sessionToUser =
    Function.update m.sessionToUser msg.sessionId (some (hash msg.body)) := rfl

end Login

section Logout
variable {sessionId user : UInt64} (hu : m.sessionToUser sessionId = some user)
include hu

theorem handleLogout_onlineUsers :
    (handleLogout m sessionId).onlineUsers = Function.update m.onlineUsers user none := by
  rw [handleLogout, hu]

theorem handleLogout_sessionToUser :
    (handleLogout m sessionId).sessionToUser = Function.update m.sessionToUser sessionId none := by
  rw [handleLogout, hu]

end Logout

theorem handleLogin_keeps (h : Consistent m) {msg : LogicMessage}
    (hspared : Spared hash m (.login msg)) : Consistent (handleLogin hash m msg) := by
  -- the session another user is online with is another session
  have hother : ∀ v t, v ≠ hash msg.body → m.onlineUsers v = some t → t ≠ msg.sessionId := by
    rintro v t hne ht rfl
    exact hspared v (h.back v _ ht) hne ht
  refine ⟨fun u => ?_, fun u s hs => ?_⟩
  · rw [isOnline_iff, handleLogin_onlineUsers, handleLogin_sessionToUser]
    by_cases hu : u = hash msg.body
    · subst hu
      exact ⟨fun _ => ⟨_, Function.update_self ..⟩, fun _ => ⟨_, Function.update_self ..⟩⟩
    · rw [Function.update_of_ne hu]
      constructor
      · rintro ⟨t, ht⟩
        refine ⟨t, ?_⟩
        rw [Function.update_of_ne (hother u t hu ht)]
        exact h.back u t ht
      · rintro ⟨t, ht⟩
        by_cases hts : t = msg.sessionId
        · rw [hts, Function.update_self] at ht
          exact absurd (Option.some.inj ht).symm hu
        · rw [Function.update_of_ne hts] at ht
          exact isOnline_iff.mp ((h.online u).mpr ⟨t, ht⟩)
  · rw [handleLogin_onlineUsers] at hs
    rw [handleLogin_sessionToUser]
    by_cases hu : u = hash msg.body
    · rw [hu, Function.update_self] at hs
      rw [← Option.some.inj hs, hu, Function.update_self]
    · rw [Function.update_of_ne hu] at hs
      rw [Function.update_of_ne (hother u s hu hs)]
      exact h.back u s hs

theorem handleLogin_iff (h : Consistent m) (msg : LogicMessage) :
    Consistent (handleLogin hash m msg) ↔ Spared hash m (.login msg) := by
  refine ⟨fun h' v hv hne honline => ?_, handleLogin_keeps h⟩
  have hback := h'.back v msg.sessionId (by
    rw [handleLogin_onlineUsers, Function.update_of_ne hne]
    exact honline)
  rw [handleLogin_sessionToUser, Function.update_self] at hback
  exact hne (Option.some.inj hback).symm

theorem handleLogout_keeps (h : Consistent m) {sessionId user : UInt64}
    (hu : m.sessionToUser sessionId = some user)
    (hspared : ∀ t, m.sessionToUser t = some user → t = sessionId) :
    Consistent (handleLogout m sessionId) := by
  -- the sessions of the other users are others, and so is what remains of this one's
  have hiff : ∀ u t, Function.update m.sessionToUser sessionId none t = some u ↔
      u ≠ user ∧ m.sessionToUser t = some u := by
    intro u t
    by_cases hts : t = sessionId
    · subst hts
      rw [Function.update_self, hu]
      refine ⟨fun ht => (Option.some_ne_none u ht.symm).elim, fun ⟨hne, ht⟩ => ?_⟩
      exact absurd (Option.some.inj ht).symm hne
    · rw [Function.update_of_ne hts]
      refine ⟨fun ht => ⟨?_, ht⟩, And.right⟩
      rintro rfl
      exact hts (hspared t ht)
  refine ⟨fun u => ?_, fun u s hs => ?_⟩
  · rw [isOnline_iff, handleLogout_onlineUsers hu, handleLogout_sessionToUser hu]
    simp only [hiff]
    by_cases hne : u = user
    · subst hne
      simp
    · rw [Function.update_of_ne hne, ← isOnline_iff, h.online u]
      simp [hne]
  · rw [handleLogout_onlineUsers hu] at hs
    rw [handleLogout_sessionToUser hu, hiff]
    by_cases hne : u = user
    · rw [hne, Function.update_self] at hs
      cases hs
    · rw [Function.update_of_ne hne] at hs
      exact ⟨hne, h.back u s hs⟩

theorem handleLogout_iff (h : Consistent m) (sessionId : UInt64) :
    Consistent (handleLogout m sessionId) ↔ Spared hash m (.logout sessionId) := by
  cases hu : m.sessionToUser sessionId with
  | none =>
      have hsame : handleLogout m sessionId = m := by rw [handleLogout, hu]
      rw [hsame]
      refine ⟨fun _ u hu' => ?_, fun _ => h⟩
      rw [hu] at hu'
      cases hu'
  | some user =>
      constructor
      · intro h' u hu' t ht
        obtain rfl : user = u := Option.some.inj (hu.symm.trans hu')
        by_contra hne
        have honline := (h'.online user).mpr ⟨t, by
          rw [handleLogout_sessionToUser hu, Function.update_of_ne hne]
          exact ht⟩
        rw [isOnline, handleLogout_onlineUsers hu, Function.update_self] at honline
        cases honline
      · intro hspared
        exact handleLogout_keeps h hu (hspared user hu)

/-! ## Runs -/

theorem step_iff (m : LoginMgr) (op : Op) (h : Consistent m) :
    ∃ m', step hash m op = some m' ∧ (Consistent m' ↔ Spared hash m op) := by
  cases op with
  | login msg => exact ⟨_, rfl, handleLogin_iff h msg⟩
  | logout sessionId => exact ⟨_, rfl, handleLogout_iff h sessionId⟩

/-- The tables are consistent after every call of a run if and only if every
call of it is spared when it is made. -/
theorem tables_consistent_iff (hash : List UInt8 → UInt64) (ops : List Op) :
    (∀ n m, run (step hash) make (ops.take n) = some m → Consistent m) ↔
      Along (step hash) (Spared hash) make ops :=
  (along_iff step_iff ops make_consistent).symm

/-- The names in a run. -/
def usernames (ops : List Op) : List (List UInt8) :=
  ops.filterMap fun op =>
    match op with
    | .login msg => some msg.body
    | .logout _ => none

/-- `ann` logs in with two sessions and out of the first: the other session still
maps to her, and she is not online, whatever the hash. -/
theorem logout_forgets_session :
    ¬ ∃ hash : List UInt8 → UInt64, ∀ ops : List Op,
      (∀ x ∈ usernames ops, ∀ y ∈ usernames ops, hash x = hash y → x = y) →
        ∀ n m, run (step hash) make (ops.take n) = some m → Consistent m := by
  intro ⟨hash, hall⟩
  let ann : List UInt8 := [97, 110, 110]
  have h := hall [.login ⟨1, ann⟩, .login ⟨2, ann⟩, .logout 1]
    (by simp [usernames]) 3 _ rfl
  have honline := (h.online (hash ann)).mpr ⟨2, by simp [handleLogin, handleLogout, make]⟩
  simp [isOnline, handleLogin, handleLogout, make] at honline

end LoginMgr

end CKernel.Net
