/-
# `CKernel.Task.Update` — the same fields given to `update` and to `add`

Both commands cut their arguments at the commas and convert the priority; `add` trims
the description and the deadline, `update` stores them as they stand.  An entry is
what both are given: a description, a priority with blanks around it, a deadline.

    `add` stores an entry trimmed                        (`exec_addLine`)
    `update` stores it as it stands                      (`exec_updateLine`)
    so both store the same exactly when it is trimmed    (`update_stores_like_add_iff`)
    the README's format for `update` is not              (`update_keeps_blanks`)
-/
import CKernel.Task.Filter

namespace CKernel.Tasks

open Text

/-! ## The code -/

/-- `cmp_by_date(ta, tb)` -/
def cmpByDate (ta tb : Task) : Bool := ta.ddl < tb.ddl

/-! ## What the commands are given -/

def Blank (str : List Char) : Prop := ∀ c ∈ str, blank c = true

/-- A priority with blanks around it. -/
structure Padded (p : Numeral) where
  before : List Char
  after : List Char
  before_blank : Blank before
  after_blank : Blank after

def Padded.text {p : Numeral} (w : Padded p) : List Char := w.before ++ p.text ++ w.after

/-- The fields of a task as they are typed, with whatever blanks are around them.  The
description is not empty and has no comma; nothing is asked of the deadline. -/
structure Entry (p : Numeral) where
  description : List Char
  priority : Padded p
  ddl : List Char
  not_empty : description ≠ []
  comma : ',' ∉ description

def Entry.text {p : Numeral} (e : Entry p) : List Char :=
  e.description ++ ',' :: (e.priority.text ++ ',' :: e.ddl)

/-- The same up to blanks around the fields. -/
structure Entry.Alike {p : Numeral} (e e' : Entry p) : Prop where
  description : trim e.description = trim e'.description
  ddl : trim e.ddl = trim e'.ddl

def addLine {p : Numeral} (e : Entry p) : List Char := "add".toList ++ ' ' :: e.text

def updateLine {id p : Numeral} (w : Padded id) (e : Entry p) : List Char :=
  "update".toList ++ ' ' :: (w.text ++ ',' :: e.text)

/-- Two tasks with the same fields, which `ls 2` orders and `filter -d` selects alike. -/
structure StoredAlike (u a : Task) : Prop where
  description : u.description = a.description
  priority : u.priority = a.priority
  ddl : u.ddl = a.ddl
  before : ∀ t, cmpByDate u t = cmpByDate a t
  after : ∀ t, cmpByDate t u = cmpByDate t a
  selected : ∀ dataSt dataEd, inRange dataSt dataEd u = inRange dataSt dataEd a

/-- What `update` stores in the task `id` and what `add` stores in a new task. -/
def StoresAlike (s : Store) {id p : Numeral} (w : Padded id) (e e' : Entry p) : Prop :=
  ∃ u a, (s.exec (updateLine w e)).tasks.find? (·.id = id.value) = some u ∧
    (s.exec (addLine e')).tasks.getLast? = some a ∧ StoredAlike u a

variable {s : Store} {id p : Numeral}

/-! ## Arguments -/

theorem isSpace_of_blank {c : Char} (h : blank c = true) : isSpace c = true := by
  rw [blank, Bool.or_eq_true, decide_eq_true_eq, decide_eq_true_eq] at h
  rcases h with rfl | rfl <;> decide

theorem not_isDigit_of_blank {c : Char} (h : blank c = true) : c.isDigit = false := by
  rw [blank, Bool.or_eq_true, decide_eq_true_eq, decide_eq_true_eq] at h
  rcases h with rfl | rfl <;> decide

theorem stoi_padded (w : Padded p) : ∃ n, stoi w.text = .ok (p.value, n) := by
  refine ⟨_, stoi_numeral p (fun d hd => isSpace_of_blank (w.before_blank d hd)) fun d hd => ?_⟩
  exact not_isDigit_of_blank (w.after_blank d (List.mem_of_mem_head? hd))

theorem comma_not_mem_padded (w : Padded p) : ',' ∉ w.text := by
  have hblank : ∀ str, Blank str → ',' ∉ str := fun str hstr hmem => nomatch hstr _ hmem
  rw [Padded.text, List.mem_append, List.mem_append]
  rintro ((hmem | hmem) | hmem)
  · exact hblank _ w.before_blank hmem
  · rcases mem_of_scanInt p.scan hmem with hdigit | hsign | hsign
    · cases hdigit
    · cases hsign
    · cases hsign
  · exact hblank _ w.after_blank hmem

theorem cut_entry (e : Entry p) :
    cut ',' e.text = some (e.description, e.priority.text ++ ',' :: e.ddl) ∧
      cut ',' (e.priority.text ++ ',' :: e.ddl) = some (e.priority.text, e.ddl) :=
  ⟨cut_append e.comma, cut_append (comma_not_mem_padded e.priority)⟩

/-- A line is cut after its command. -/
theorem command_and_args {cmd args : List Char} (h : ∀ c ∈ cmd, c ≠ ' ') :
    (cmd ++ ' ' :: args).takeWhile (· ≠ ' ') = cmd ∧
      ((cmd ++ ' ' :: args).dropWhile (· ≠ ' ')).drop 1 = args := by
  have hcmd : ∀ c ∈ cmd, decide (c ≠ ' ') = true := fun c hc => decide_eq_true (h c hc)
  rw [List.takeWhile_append_of_pos hcmd, List.dropWhile_append_of_pos hcmd,
    List.takeWhile_cons_of_neg (by simp), List.dropWhile_cons_of_neg (by simp), List.append_nil]
  exact ⟨rfl, rfl⟩

/-! ## Both commands -/

section Dispatch
variable {input : List Char}

theorem exec_add (h : input.takeWhile (· ≠ ' ') = "add".toList) :
    s.exec input = s.addCommand ((input.dropWhile (· ≠ ' ')).drop 1) := by
  rw [Store.exec]
  exact if_pos h

theorem exec_update (h : input.takeWhile (· ≠ ' ') = "update".toList) :
    s.exec input = s.updateCommand ((input.dropWhile (· ≠ ' ')).drop 1) := by
  have hadd : "update".toList ≠ "add".toList := by decide +kernel
  have hdelete : "update".toList ≠ "delete".toList := by decide +kernel
  simp only [Store.exec, h, if_neg hadd, if_neg hdelete, if_true]

end Dispatch

theorem exec_addLine (e : Entry p) :
    s.exec (addLine e) = s.add (trim e.description) p.value (trim e.ddl) := by
  obtain ⟨hcmd, hargs⟩ := @command_and_args "add".toList e.text (by simp)
  obtain ⟨hfirst, hsecond⟩ := cut_entry e
  obtain ⟨n, hstoi⟩ := stoi_padded e.priority
  rw [addLine, exec_add hcmd, hargs, Store.addCommand, hfirst]
  simp only [hsecond, if_neg e.not_empty, hstoi]

theorem exec_updateLine (w : Padded id) (e : Entry p) :
    s.exec (updateLine w e) = s.update id.value e.description p.value e.ddl := by
  obtain ⟨hcmd, hargs⟩ := @command_and_args "update".toList (w.text ++ ',' :: e.text) (by simp)
  obtain ⟨hsecond, hthird⟩ := cut_entry e
  have hfirst : cut ',' (w.text ++ ',' :: e.text) = some (w.text, e.text) :=
    cut_append (comma_not_mem_padded w)
  obtain ⟨m, hid⟩ := stoi_padded w
  obtain ⟨n, hstoi⟩ := stoi_padded e.priority
  have hline : updateLine w e = "update".toList ++ ' ' :: (w.text ++ ',' :: e.text) := rfl
  rw [hline, exec_update hcmd, hargs, Store.updateCommand, hfirst]
  simp only [hsecond, hthird, hid, hstoi]

/-- The element that is changed is the first one found, before and after. -/
theorem find_modify {α : Type} {q : α → Bool} {f : α → α} (h : ∀ x, q x = true → q (f x) = true)
    (l : List α) : (l.modify (l.findIdx q) f).find? q = (l.find? q).map f := by
  induction l with
  | nil => rfl
  | cons x l ih =>
      cases hx : q x with
      | true =>
          rw [List.findIdx_cons, hx, List.find?_cons_of_pos hx]
          exact List.find?_cons_of_pos (h x hx)
      | false =>
          have hx' : ¬ q x = true := Bool.eq_false_iff.mp hx
          rw [List.findIdx_cons, hx, List.find?_cons_of_neg hx', ← ih]
          exact List.find?_cons_of_neg hx'

theorem find_update {n : Int} (hn : n ∈ s.ids) (description : List Char) (priority : Int)
    (ddl : List Char) :
    ∃ t : Task, (s.update n description priority ddl).tasks.find? (·.id = n) =
      some { t with description := description, priority := priority, ddl := ddl } := by
  have hany : s.tasks.any (·.id = n) = true := by
    have hmap : n ∈ s.tasks.map Task.id := hn
    obtain ⟨t, ht, hid⟩ := List.mem_map.mp hmap
    exact List.any_eq_true.mpr ⟨t, ht, decide_eq_true hid⟩
  have hsome : (s.tasks.find? (·.id = n)).isSome := List.find?_isSome.mpr (List.any_eq_true.mp hany)
  obtain ⟨t, ht⟩ := Option.isSome_iff_exists.mp hsome
  refine ⟨t, ?_⟩
  rw [Store.update, if_pos hany]
  show (s.tasks.modify _ _).find? _ = _
  rw [find_modify, ht]
  · rfl
  · exact fun _ hx => hx

theorem storedAlike_iff {u a : Task} (hpriority : u.priority = a.priority) :
    StoredAlike u a ↔ u.description = a.description ∧ u.ddl = a.ddl := by
  refine ⟨fun h => ⟨h.description, h.ddl⟩, fun ⟨hdescription, hddl⟩ => ?_⟩
  refine ⟨hdescription, hpriority, hddl, fun t => ?_, fun t => ?_, fun st ed => ?_⟩
  · rw [cmpByDate, cmpByDate, hddl]
  · rw [cmpByDate, cmpByDate, hddl]
  · rw [inRange, inRange, hddl]

/-- For every store, every id in it and every entry: `update` stores what `add` stores of
the same entry, up to blanks around its fields, exactly when the description and the
deadline given to `update` have none. -/
theorem update_stores_like_add_iff (s : Store) (id p : Numeral) (hid : id.value ∈ s.ids)
    (w : Padded id) {e e' : Entry p} (h : e.Alike e') :
    StoresAlike s w e e' ↔ Trimmed e.description ∧ Trimmed e.ddl := by
  obtain ⟨t, hfind⟩ := find_update hid e.description p.value e.ddl
  have hlast : (s.add (trim e'.description) p.value (trim e'.ddl)).tasks.getLast? =
      some ⟨toInt s.nextId, trim e'.description, p.value, trim e'.ddl⟩ := by
    rw [Store.add]
    exact List.getLast?_concat
  rw [StoresAlike, exec_updateLine, exec_addLine, hfind, hlast, ← trim_eq_self, ← trim_eq_self,
    h.description, h.ddl]
  constructor
  · rintro ⟨u, a, hu, ha, halike⟩
    obtain rfl := Option.some.inj hu
    obtain rfl := Option.some.inj ha
    exact ⟨halike.description.symm, halike.ddl.symm⟩
  · rintro ⟨hdescription, hddl⟩
    refine ⟨_, _, rfl, rfl, (storedAlike_iff ?_).mpr ⟨?_, ?_⟩⟩
    · dsimp only
    · exact hdescription.symm
    · exact hddl.symm

/-- A numeral as it stands. -/
def bare (p : Numeral) : Padded p := ⟨[], [], by simp [Blank], by simp [Blank]⟩

/-- A store with one task, of id 1. -/
def oneTask : Store := Store.empty.exec "add a, 1, x".toList

/-- Blanks around the priority, and for `add` around the other fields. -/
theorem update_stores_like_add_iff_trimmed :
    StoresAlike oneTask (bare one)
      (⟨"b c".toList, ⟨[' '], ['\t'], by simp [Blank, blank], by simp [Blank, blank]⟩,
        "2026".toList, by simp, by simp⟩ : Entry one)
      ⟨" b c".toList, bare one, "2026 ".toList, by simp, by simp⟩ :=
  (update_stores_like_add_iff oneTask one one (by decide +kernel) (bare one)
    ⟨by decide +kernel, by decide +kernel⟩).mpr
    ⟨trim_eq_self.mp (by decide +kernel), trim_eq_self.mp (by decide +kernel)⟩

def two : Numeral := ⟨['2'], 2, by decide +kernel, by decide⟩

/-- ` b, 2, 2026-01-01`, with a space after each comma as the README writes it. -/
def spaced : Entry two :=
  ⟨" b".toList, ⟨[' '], [], by simp [Blank, blank], by simp [Blank]⟩, " 2026-01-01".toList, by simp,
    by simp⟩

/-- `update` keeps the spaces, and `add` does not. -/
theorem update_keeps_blanks :
    ¬ ∀ (s : Store) (id p : Numeral), id.value ∈ s.ids → ∀ (w : Padded id) (e e' : Entry p),
      e.Alike e' → StoresAlike s w e e' := by
  intro h
  obtain ⟨u, a, hu, ha, halike⟩ :=
    h oneTask one two (by decide +kernel) (bare one) spaced spaced ⟨rfl, rfl⟩
  have hupdate : " b".toList = u.description :=
    Option.some.inj ((by decide +kernel : _ = _).trans (congrArg (Option.map Task.description) hu))
  have hadd : "b".toList = a.description :=
    Option.some.inj ((by decide +kernel : _ = _).trans (congrArg (Option.map Task.description) ha))
  have hsame : " b".toList = "b".toList :=
    hupdate.trans (halike.description.trans hadd.symm)
  exact absurd hsame (by decide +kernel)

end CKernel.Tasks
