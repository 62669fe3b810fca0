/-
# `CKernel.Net.SessionManager` — `close_all` of `base_logic_layer/test`

`SessionManager` keeps the sessions in a table behind a mutex that is not recursive.
`close_all` holds the mutex and closes one session after the other; a session that is
closed removes itself from the table, which locks the mutex.

    a session closes from outside, and leaves the table        (`close_of_unlocked`)
    under the mutex it does not, whatever its socket answers   (`close_of_locked`)
    and without the mutex its erase would meet the loop        (`removeSession_of_looping`)
    so all are closed just when there is none                  (`close_all_completes_iff`)
    one session                                                (`one_session_relocks`)
-/
import CKernel.Lib.Throws

namespace CKernel.Net.SessionManager

open Throws

/-! ## The code -/

/-- A session, and whether `_sock.shutdown` fails.  What `_sock.close` leaves in `ec` is
not looked at. -/
structure Session where
  id : UInt64
  shutdownFails : Bool
  deriving DecidableEq, Repr

/-- `_sessions`, in the order in which a loop meets them. -/
structure Table where
  sessions : List Session
  nodup : (sessions.map Session.id).Nodup

namespace Table

def empty : Table := ⟨[], List.nodup_nil⟩

/-- `_sessions.erase(id)` -/
def erase (t : Table) (id : UInt64) : Table where
  sessions := t.sessions.filter fun sess => sess.id ≠ id
  nodup := t.nodup.sublist (List.filter_sublist.map _)

/-- `_sessions[id] = sess`, with its own id as the key. -/
def insert (t : Table) (sess : Session) : Table where
  sessions := sess :: (t.erase sess.id).sessions
  nodup := by
    refine List.nodup_cons.mpr ⟨fun hmem => ?_, (t.erase sess.id).nodup⟩
    obtain ⟨other, hother, hid⟩ := List.mem_map.mp hmem
    exact of_decide_eq_true (List.mem_filter.mp hother).2 hid

end Table

/-- What one thread must not do. -/
inductive Fault where
  /-- `lock()` of a `std::mutex` that the thread holds -/
  | relocked
  /-- `erase` from a table that a loop runs over -/
  | erasedInLoop
  deriving DecidableEq, Repr

/-- The manager as the calling thread sees it: whether it holds `_mutex` and is in a loop
over `_sessions`.  `closed` lists the calls of `Session::close`, `out` what is printed. -/
structure Manager where
  table : Table
  locked : Bool
  looping : Bool
  closed : List UInt64
  out : List String

abbrev Call := EStateM Fault Manager

def lock : Call Unit := do
  let m ← get
  if m.locked then throw .relocked
  set { m with locked := true }

def unlock : Call Unit := modify fun m => { m with locked := false }

def print (line : String) : Call Unit := modify fun m => { m with out := m.out ++ [line] }

def addSession (sess : Session) : Call Unit := do
  lock
  modify fun m => { m with table := m.table.insert sess }
  unlock

def removeSession (id : UInt64) : Call Unit := do
  lock
  let m ← get
  if m.looping then throw .erasedInLoop
  set { m with table := m.table.erase id }
  unlock

def called (sess : Session) (m : Manager) : Manager :=
  { m with closed := m.closed ++ [sess.id] }

/-- `Session::close()` -/
def Session.close (sess : Session) : Call Unit := do
  modify (called sess)
  if sess.shutdownFails then
    removeSession sess.id
  else
    removeSession sess.id
    print ("[session] " ++ toString sess.id ++ " closed")

def closeAll : Call Unit := do
  lock
  let m ← get
  print ("[session_mgr] closing " ++ toString m.table.sessions.length ++ " sessions...")
  modify fun m => { m with looping := true }
  m.table.sessions.forM Session.close
  modify fun m => { m with looping := false, table := .empty }
  print "[session_mgr] all sessions closed"
  unlock

/-! ## What the results say -/

/-- The manager between two calls. -/
def holding (table : Table) : Manager := ⟨table, false, false, [], []⟩

/-- `close_all` returns, the table is empty, and each session has been closed once. -/
def Completes (table : Table) : Prop :=
  ∃ m, closeAll (holding table) = .ok () m ∧ m.table.sessions = [] ∧
    m.closed.Perm (table.sessions.map Session.id)

variable {m : Manager} {sess : Session}

/-! ## One session -/

theorem lock_of_locked (h : m.locked = true) : lock m = .error .relocked m := by
  rw [lock, get_bind, if_pos h]
  rfl

theorem lock_of_unlocked (h : m.locked = false) : lock m = .ok () { m with locked := true } := by
  rw [lock, get_bind, h]
  rfl

theorem removeSession_of_locked (h : m.locked = true) (id : UInt64) :
    removeSession id m = .error .relocked m :=
  bind_of_error (lock_of_locked h)

theorem removeSession_of_looping (h : m.locked = false) (hloop : m.looping = true)
    (id : UInt64) :
    removeSession id m = .error .erasedInLoop { m with locked := true } := by
  refine (bind_of_ok (lock_of_unlocked h)).trans ?_
  rw [get_bind, hloop]
  rfl

theorem removeSession_of_unlocked (h : m.locked = false) (hloop : m.looping = false)
    (id : UInt64) :
    removeSession id m = .ok () { m with table := m.table.erase id } := by
  refine (bind_of_ok (lock_of_unlocked h)).trans ?_
  rw [get_bind, hloop]
  obtain ⟨table, locked, looping, closed, out⟩ := m
  cases h
  rfl

/-- Under the mutex a session closes neither way. -/
theorem close_of_locked (h : m.locked = true) :
    sess.close m = .error .relocked (called sess m) := by
  have hremove := removeSession_of_locked (m := called sess m) h sess.id
  rw [Session.close, modify_bind]
  cases sess.shutdownFails with
  | true => exact hremove
  | false => exact bind_of_error hremove

/-- From outside it closes both ways. -/
theorem close_of_unlocked (h : m.locked = false) (hloop : m.looping = false) :
    ∃ out, sess.close m = .ok () { called sess m with table := m.table.erase sess.id, out } := by
  have hremove := removeSession_of_unlocked (m := called sess m) h hloop sess.id
  rw [Session.close, modify_bind]
  cases sess.shutdownFails with
  | true => exact ⟨m.out, hremove⟩
  | false => exact ⟨_, bind_of_ok hremove⟩

/-! ## All sessions -/

/-- Where there is a session, the first one asks for the mutex. -/
theorem closeAll_relocks {table : Table} (h : table.sessions ≠ []) :
    ∃ m, closeAll (holding table) = .error .relocked m := by
  obtain ⟨sess, rest, hsessions⟩ := List.exists_cons_of_ne_nil h
  have hlock := lock_of_unlocked (m := holding table) rfl
  rw [closeAll, bind_of_ok hlock, get_bind]
  show ∃ m, (table.sessions.forM Session.close >>= _) _ = _
  rw [hsessions]
  exact ⟨_, bind_of_error (bind_of_error (close_of_locked rfl))⟩

/-- `close_all` closes all sessions if and only if there is none. -/
theorem close_all_completes_iff (table : Table) : Completes table ↔ table.sessions = [] := by
  constructor
  · rintro ⟨m, hm, -⟩
    by_contra hne
    obtain ⟨m', hm'⟩ := closeAll_relocks hne
    exact nomatch hm.symm.trans hm'
  · intro hnil
    obtain ⟨sessions, hnodup⟩ := table
    cases hnil
    exact ⟨_, rfl, rfl, .nil⟩

theorem one_session_relocks : ¬ ∀ table : Table, Completes table := by
  intro hall
  obtain ⟨m, hm, -⟩ := hall (Table.empty.insert ⟨1, false⟩)
  obtain ⟨m', hm'⟩ := @closeAll_relocks (Table.empty.insert ⟨1, false⟩) (List.cons_ne_nil _ _)
  exact nomatch hm.symm.trans hm'

end CKernel.Net.SessionManager
