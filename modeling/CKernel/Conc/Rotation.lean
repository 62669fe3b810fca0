/-
# `CKernel.Conc.Rotation` — the rotating file sink of `logger.h`

A sink appends lines to a file and goes to the next index when the line would take the
file past `_max_byte`.  The directory outlives the sink: a new sink starts again at
index 0 and takes the size of whatever file is there.  A file is the list of the lines
written to it, so that its size and their number can both be read off.

    the file is another one just when the line does not fit    (`rotateIfNeed_eq`)
    what is written to stays within the limit, or not          (`write_limited_iff`)
    all files of a run do, or not                              (`limit_kept_iff`)
    a restart, two full files: the second is taken past it     (`second_file_overfull`)
-/
import CKernel.Lib.Run

namespace CKernel.Conc

open Run

/-! ## The code -/

/-- A file, as the lines written to it; a `char` is a byte. -/
abbrev LogFile := List (List Char)

/-- The position at the end of the file. -/
def LogFile.size (f : LogFile) : Nat := (f.map List.length).sum

/-- What the constructor is given and no method changes.  Sizes of files and of strings
are below 2^63, so their sums do not wrap. -/
structure SinkConfig where
  baseName : List Char
  maxByte : Nat
  rotateByDate : Bool
  ext : List Char
  deriving DecidableEq, Repr

/-- A `rotating_file_sink` with its directory; `ofs` is the name of the file that is
open. -/
structure RotatingFileSink where
  dir : List Char → Option LogFile
  ofs : List Char
  currSize : Nat
  currDate : List Char
  fileIdx : Nat

namespace RotatingFileSink

/-- `make_file_name()` -/
def makeFileName (c : SinkConfig) (currDate : List Char) (fileIdx : Nat) : List Char :=
  c.baseName ++ ['_'] ++ currDate ++ ['_'] ++ Nat.toDigits 10 fileIdx ++ c.ext

/-- The file under a name when it is opened to append: `std::ios::app` creates it. -/
def opened (dir : List Char → Option LogFile) (filename : List Char) : LogFile :=
  (dir filename).getD []

/-- `open_file()`, with `_curr_size` set from `tellp`. -/
def openFile (c : SinkConfig) (s : RotatingFileSink) : RotatingFileSink :=
  let filename := makeFileName c s.currDate s.fileIdx
  let file := opened s.dir filename
  { s with
    dir := Function.update s.dir filename (some file)
    ofs := filename
    currSize := file.size }

/-- The constructor. -/
def make (c : SinkConfig) (today : List Char) (dir : List Char → Option LogFile) :
    RotatingFileSink :=
  openFile c ⟨dir, [], 0, today, 0⟩

/-- `rotate_if_need(next_writ_size)` on the date `today` -/
def rotateIfNeed (c : SinkConfig) (today : List Char) (s : RotatingFileSink)
    (nextWritSize : Nat) : RotatingFileSink :=
  if c.rotateByDate ∧ today ≠ s.currDate then
    openFile c { s with currDate := today, fileIdx := 0 }
  else if 0 < c.maxByte ∧ c.maxByte < s.currSize + nextWritSize then
    openFile c { s with fileIdx := s.fileIdx + 1 }
  else s

/-- `_ofs << line` and the count of it. -/
def append (s : RotatingFileSink) (line : List Char) : RotatingFileSink :=
  { s with
    dir := Function.update s.dir s.ofs (some (opened s.dir s.ofs ++ [line]))
    currSize := s.currSize + line.length }

/-- `write(msg)` on the date `today` -/
def write (c : SinkConfig) (today : List Char) (s : RotatingFileSink) (msg : List Char) :
    RotatingFileSink :=
  let line := msg ++ ['\n']
  (rotateIfNeed c today s line.length).append line

inductive Op where
  | write (msg : List Char)
  /-- The sink is destroyed and another made over the files it leaves. -/
  | restart
  deriving DecidableEq, Repr

def step (c : SinkConfig) (today : List Char) (s : RotatingFileSink) :
    Op → Option RotatingFileSink
  | .write msg => some (write c today s msg)
  | .restart => some (make c today s.dir)

/-- The first sink, in an empty directory. -/
def start (c : SinkConfig) (today : List Char) : RotatingFileSink := make c today fun _ => none

/-! ## What the results say -/

def Fits (maxByte : Nat) (f : LogFile) : Prop := f.size ≤ maxByte ∨ f.length = 1

instance (maxByte : Nat) (f : LogFile) : Decidable (Fits maxByte f) :=
  inferInstanceAs (Decidable (_ ∨ _))

/-- No file is larger than the limit, unless it holds exactly one line. -/
def Limited (c : SinkConfig) (s : RotatingFileSink) : Prop :=
  ∀ name f, s.dir name = some f → Fits c.maxByte f

/-- If the write moves to the next file, that file is empty or has room for the line. -/
def NextHasRoom (c : SinkConfig) (s : RotatingFileSink) : Op → Prop
  | .write msg => c.maxByte < s.currSize + (msg.length + 1) →
      let next := opened s.dir (makeFileName c s.currDate (s.fileIdx + 1))
      next = [] ∨ next.size + (msg.length + 1) ≤ c.maxByte
  | .restart => True

instance (c : SinkConfig) (s : RotatingFileSink) : (op : Op) → Decidable (NextHasRoom c s op)
  | .write _ => inferInstanceAs (Decidable (_ → _ ∨ _))
  | .restart => isTrue trivial

/-- The sink counts the file it has open, which has today's name. -/
structure Open (c : SinkConfig) (today : List Char) (s : RotatingFileSink) : Prop where
  date : s.currDate = today
  size : s.currSize = (opened s.dir s.ofs).size

variable {c : SinkConfig} {today : List Char} {s : RotatingFileSink} {line msg : List Char}

/-! ## Files -/

theorem size_append (f : LogFile) (line : List Char) :
    LogFile.size (f ++ [line]) = f.size + line.length := by
  simp [LogFile.size]

/-- A line added to a file. -/
theorem fits_append_iff {maxByte : Nat} (f : LogFile) (line : List Char) :
    Fits maxByte (f ++ [line]) ↔ f = [] ∨ f.size + line.length ≤ maxByte := by
  rw [Fits, size_append, List.length_append, List.length_singleton, Nat.add_eq_right,
    List.length_eq_zero_iff, or_comm]

theorem opened_update (dir : List Char → Option LogFile) (name : List Char) (f : LogFile) :
    opened (Function.update dir name (some f)) name = f := by
  rw [opened, Function.update_self, Option.getD_some]

/-- One file of the directory is replaced. -/
theorem limited_update {dir : List Char → Option LogFile} {name : List Char} {f : LogFile}
    (h : ∀ n g, dir n = some g → Fits c.maxByte g) :
    (∀ n g, Function.update dir name (some f) n = some g → Fits c.maxByte g) ↔
      Fits c.maxByte f := by
  refine ⟨fun hall => hall name f (Function.update_self ..), fun hf n g hg => ?_⟩
  by_cases hn : n = name
  · rw [hn, Function.update_self] at hg
    exact Option.some.inj hg ▸ hf
  · rw [Function.update_of_ne hn] at hg
    exact h n g hg

/-! ## Opening a file -/

theorem openFile_open (hdate : s.currDate = today) : Open c today (openFile c s) := by
  refine ⟨hdate, ?_⟩
  simp only [openFile, opened_update]

/-- A file that is created is empty, and the others are left as they are. -/
theorem openFile_limited (h : s.Limited c) : (openFile c s).Limited c := by
  refine (limited_update h).mpr ?_
  rw [opened]
  cases hfile : s.dir (makeFileName c s.currDate s.fileIdx) with
  | none => exact .inl (Nat.zero_le _)
  | some f => exact h _ f hfile

theorem make_limited (h : s.Limited c) : (make c today s.dir).Limited c :=
  openFile_limited (s := ⟨s.dir, [], 0, today, 0⟩) h

theorem start_limited : (start c today).Limited c :=
  make_limited (s := ⟨fun _ => none, [], 0, today, 0⟩) fun _ _ h => nomatch h

/-! ## One call -/

theorem rotateIfNeed_open (h : Open c today s) (n : Nat) :
    Open c today (rotateIfNeed c today s n) := by
  rw [rotateIfNeed]
  split
  · exact openFile_open rfl
  · split
    · exact openFile_open h.date
    · exact h

theorem append_open (h : Open c today s) (line : List Char) : Open c today (s.append line) := by
  refine ⟨h.date, ?_⟩
  simp only [append, opened_update, size_append, h.size]

theorem step_open {op : Op} {s' : RotatingFileSink} (h : Open c today s)
    (hs : step c today s op = some s') : Open c today s' := by
  cases op with
  | write msg =>
      cases hs
      exact append_open (rotateIfNeed_open h _) _
  | restart =>
      cases hs
      exact openFile_open rfl

/-- On the same date: the next index if the line does not fit, else the file that is open. -/
theorem rotateIfNeed_eq (hmax : 0 < c.maxByte) (h : Open c today s) (n : Nat) :
    rotateIfNeed c today s n =
      if c.maxByte < s.currSize + n then openFile c { s with fileIdx := s.fileIdx + 1 } else s := by
  rw [rotateIfNeed, if_neg (fun hdate => hdate.2 h.date.symm)]
  simp only [hmax, true_and]

theorem write_limited_iff (hmax : 0 < c.maxByte) (h : Open c today s) (hs : s.Limited c)
    (msg : List Char) :
    (write c today s msg).Limited c ↔ NextHasRoom c s (.write msg) := by
  have hlen : (msg ++ ['\n']).length = msg.length + 1 := by
    rw [List.length_append, List.length_singleton]
  rw [write, hlen, rotateIfNeed_eq hmax h, NextHasRoom]
  split
  case isTrue hover =>
    -- the file at the next index takes the line
    have hnext : Limited c (openFile c { s with fileIdx := s.fileIdx + 1 }) := openFile_limited hs
    rw [append, Limited, limited_update hnext, fits_append_iff, hlen]
    simp only [openFile, opened_update, hover, true_imp_iff]
  case isFalse hroom =>
    have hfits : (opened s.dir s.ofs).size + (msg ++ ['\n']).length ≤ c.maxByte := by
      rw [hlen, ← h.size]
      exact Nat.le_of_not_lt hroom
    refine iff_of_true ?_ fun hover => absurd hover hroom
    exact (limited_update hs).mpr ((fits_append_iff _ _).mpr (.inr hfits))

theorem step_limited_iff (hmax : 0 < c.maxByte) (h : Open c today s) (hs : s.Limited c) (op : Op) :
    ∃ s', step c today s op = some s' ∧ (s'.Limited c ↔ NextHasRoom c s op) := by
  cases op with
  | write msg => exact ⟨_, rfl, write_limited_iff hmax h hs msg⟩
  | restart => exact ⟨_, rfl, iff_of_true (make_limited hs) trivial⟩

/-! ## Runs -/

/-- The files of a run keep the limit, after every call of it, if and only if every write
that moves to the next index finds a file there that is empty or has room. -/
theorem limit_kept_iff (c : SinkConfig) (hmax : 0 < c.maxByte) (today : List Char)
    (ops : List Op) :
    (∀ n s, run (step c today) (start c today) (ops.take n) = some s → s.Limited c) ↔
      Along (step c today) (NextHasRoom c) (start c today) ops := by
  have hstart : Open c today (start c today) := openFile_open rfl
  have hstep : ∀ s op, Open c today s ∧ s.Limited c → ∃ s', step c today s op = some s' ∧
      (Open c today s' ∧ s'.Limited c ↔ NextHasRoom c s op) := by
    intro s op ⟨hopen, hlimited⟩
    obtain ⟨s', hs', hiff⟩ := step_limited_iff hmax hopen hlimited op
    exact ⟨s', hs', (and_iff_right (step_open hopen hs')).trans hiff⟩
  rw [along_iff hstep ops ⟨hstart, start_limited⟩]
  refine forall_congr' fun n => forall_congr' fun s => imp_congr_right fun hrun => ?_
  have hopen : Open c today s := run_keeps (fun _ _ _ h hs => step_open h hs) _ hstart hrun
  exact (and_iff_right hopen).symm

/-- The demo's base name and date. -/
def demo (maxByte : Nat) : SinkConfig := ⟨"log".toList, maxByte, true, ".txt".toList⟩

def demoDate : List Char := "2026-06-11".toList

/-- The first file is full at the restart, the second has room. -/
def roomLeft : List Op :=
  [.write "ab".toList, .write "cd".toList, .write "e".toList, .restart, .write "f".toList]

theorem limit_kept_iff_room :
    Along (step (demo 6) demoDate) (NextHasRoom (demo 6)) (start (demo 6) demoDate) roomLeft ∧
      ∀ n s, run (step (demo 6) demoDate) (start (demo 6) demoDate) (roomLeft.take n) = some s →
        s.Limited (demo 6) := by
  have hroom : Along (step (demo 6) demoDate) (NextHasRoom (demo 6)) (start (demo 6) demoDate)
      roomLeft := by decide +kernel
  exact ⟨hroom, (limit_kept_iff (demo 6) (by decide) demoDate roomLeft).mpr hroom⟩

/-- Files 0 and 1 are full; the sink that is made over them starts at 0, moves to 1 and
writes there. -/
theorem second_file_overfull :
    ¬ ∀ c : SinkConfig, 0 < c.maxByte → ∀ today ops s,
      run (step c today) (start c today) ops = some s → s.Limited c := by
  intro h
  have hlimited := h (demo 2) (by decide) demoDate
    [.write "a".toList, .write "b".toList, .restart, .write "c".toList] _ rfl
  have hfits := hlimited "log_2026-06-11_1.txt".toList ["b\n".toList, "c\n".toList]
    (by decide +kernel)
  exact absurd hfits (by decide)

end RotatingFileSink

end CKernel.Conc
